import TensorLogic.Proofs.Cells

/-!
# What a buffer can hold

A shape can be laid out if its strides and its size are words (`Shape.Storable`). That is
not a bound on the number of cells: strides are multiplied through extents that stand
behind a 0, and sizes through extents in front of it.

For a buffer of its cells there has to be memory as well, and how much depends on the type
of the cells. A buffer that is asked for at once takes the cells themselves
(`Shape.Fillable`). One that grows as it is filled doubles its room, so what it takes in
the end is a power of two (`Shape.Growable`); it asks after each cell, and where there is
room in the end there was room all along (`Tensor.fill_grown`). A fold needs one buffer of
either kind besides, for the block that it reads (`Shape.Blockable`).
-/

namespace TensorLogic

variable {α β σ : Type}

/-! ## Shapes that can be stored -/

namespace Size

theorem product?_eq_some_iff {acc n : Nat} {shape : Shape} (hacc : acc < Word.bound) :
    product? acc shape = some n ↔
      n = acc * shape.cells ∧ ∀ k, acc * Shape.cells (shape.take k) < Word.bound := by
  induction shape generalizing acc with
  | nil => simp [product?, Shape.cells, eq_comm, hacc]
  | cons m rest ih =>
      have hcons : ∀ l, acc * Shape.cells (m :: l) = acc * m * Shape.cells l := fun l =>
        (Nat.mul_assoc _ _ _).symm
      rw [product?]
      split
      next hlt =>
          rw [ih hlt, hcons]
          refine and_congr_right fun _ => ⟨fun h k => ?_, fun h k => ?_⟩
          · cases k with
            | zero => simpa [Shape.cells] using hacc
            | succ k =>
                rw [List.take_succ_cons, hcons]
                exact h k
          · have hk := h (k + 1)
            rwa [List.take_succ_cons, hcons] at hk
      next hge =>
          constructor
          · intro h
            cases h
          · intro h
            have hone := h.2 1
            rw [List.take_succ_cons, hcons] at hone
            exact absurd (by simpa [Shape.cells] using hone) hge

theorem plain_ok_iff {shape : Shape} :
    plain shape = .ok shape.cells ↔ ∀ k, Shape.cells (shape.take k) < Word.bound := by
  have hsome : product? 1 shape = some shape.cells ↔
      shape.cells = 1 * shape.cells ∧ ∀ k, 1 * Shape.cells (shape.take k) < Word.bound :=
    product?_eq_some_iff (by decide)
  simp only [Nat.one_mul, true_and] at hsome
  rw [← hsome, plain]
  cases product? 1 shape with
  | none => simp [trap]
  | some n => simp

theorem checked_ok_iff {shape : Shape} {n : Nat} :
    checked shape = .ok n ↔ product? 1 shape = some n := by
  rw [checked]
  cases product? 1 shape with
  | none => simp [refuse, throw, throwThe, MonadExceptOf.throw]
  | some m => simp

theorem reserve_ok_iff {entries width : Nat} :
    reserve entries width = .ok () ↔ entries * width < Nat.pow 2 63 := by
  rw [reserve]
  split
  next hlt => exact iff_of_true rfl hlt
  next hge => exact iff_of_false (fun h => by cases h) hge

theorem reserve_error {entries width : Nat} (h : reserve entries width ≠ .ok ()) :
    reserve entries width = trap (.capacity entries) := by
  rw [reserve] at h ⊢
  split at h
  · exact absurd rfl h
  · next hlarge => rw [if_neg hlarge]

theorem reserve_mono {m n width : Nat} (hle : m ≤ n) (h : reserve n width = .ok ()) :
    reserve m width = .ok () := by
  rw [reserve_ok_iff] at h ⊢
  exact Nat.lt_of_le_of_lt (Nat.mul_le_mul_right _ hle) h

theorem reserve_narrower {entries narrow wide : Nat} (hle : narrow ≤ wide)
    (h : reserve entries wide = .ok ()) : reserve entries narrow = .ok () := by
  rw [reserve_ok_iff] at h ⊢
  exact Nat.lt_of_le_of_lt (Nat.mul_le_mul_left _ hle) h

theorem room_mono {m n : Nat} (h : m ≤ n) : room m ≤ room n := by
  cases m with
  | zero => exact Nat.zero_le _
  | succ m =>
      obtain ⟨k, rfl⟩ : ∃ k, n = k + 1 := ⟨n - 1, by omega⟩
      refine Nat.pow_le_pow_right (by omega) (Nat.succ_le_succ ?_)
      rcases Nat.eq_zero_or_pos m with rfl | hpos
      · exact Nat.zero_le _
      · exact (Nat.le_log2 (by omega)).mpr
          (Nat.le_trans (Nat.log2_self_le (by omega)) (by omega))

/-- A buffer that doubles is at least half full. -/
theorem room_le (n : Nat) : room n ≤ 2 * n := by
  match n with
  | 0 => exact Nat.le_refl 0
  | 1 => decide
  | n + 2 =>
      have hle : Nat.pow 2 (Nat.log2 (n + 1)) ≤ n + 1 := Nat.log2_self_le (by omega)
      have hroom : room (n + 2) = Nat.pow 2 (Nat.log2 (n + 1)) * 2 := Nat.pow_succ _ _
      omega

theorem grow_mono {m n width : Nat} (hle : m ≤ n) (h : grow n width = .ok ()) :
    grow m width = .ok () :=
  reserve_mono (room_mono hle) h

theorem grow_ok_iff {entries width : Nat} :
    grow entries width = .ok () ↔ room entries * width < Nat.pow 2 63 :=
  reserve_ok_iff

/-- Twice the entries are more than a buffer grows to. -/
theorem grow_of_reserve {entries width : Nat} (h : reserve (2 * entries) width = .ok ()) :
    grow entries width = .ok () :=
  reserve_mono (room_le entries) h

theorem growing_ok_iff {entries width : Nat} :
    growing entries width = .ok () ↔ grow entries width = .ok () := by
  rw [growing, forM_eq_ok]
  constructor
  · intro h
    cases entries with
    | zero => exact reserve_ok_iff.mpr (by simp [room])
    | succ last => exact h last (List.mem_range.mpr (Nat.lt_succ_self last))
  · intro h before hbefore
    exact grow_mono (List.mem_range.mp hbefore) h

theorem rowMajor_ok_iff {shape : Shape} :
    (∃ strides, rowMajor shape = .ok (strides, shape.cells)) ↔
      ∀ k, Shape.cells (shape.drop k) < Word.bound := by
  induction shape with
  | nil =>
      refine ⟨fun _ k => ?_, fun _ => ⟨[], rfl⟩⟩
      rw [List.drop_nil]
      decide
  | cons n rest ih =>
      constructor
      · rintro ⟨strides, h⟩ k
        obtain ⟨-, hwhole, hlt, -⟩ := Tensor.rowMajor_reach h
        obtain ⟨behind, step, hrest, -⟩ := rowMajor_cons_ok h
        obtain ⟨-, hstep, -⟩ := Tensor.rowMajor_reach hrest
        cases k with
        | zero => exact hlt
        | succ k => exact ih.mp ⟨behind, hstep ▸ hrest⟩ k
      · intro h
        obtain ⟨behind, hrest⟩ := ih.mpr fun k => h (k + 1)
        have hcells : Shape.cells rest * n = Shape.cells (n :: rest) := Nat.mul_comm _ _
        have hlt : Shape.cells rest * n < Word.bound := hcells ▸ h 0
        refine ⟨Shape.cells rest :: behind, ?_⟩
        rw [rowMajor, hrest]
        exact bind_eq_ok.mpr ⟨(behind, Shape.cells rest), rfl,
          bind_eq_ok.mpr ⟨Shape.cells rest * n, if_pos hlt, by rw [hcells]⟩⟩

end Size

namespace Shape

/-- A shape can be laid out if no product of leading and none of trailing extents leaves
the word. -/
theorem storable_iff {shape : Shape} :
    shape.Storable ↔
      (∀ k, cells (shape.take k) < Word.bound) ∧ ∀ k, cells (shape.drop k) < Word.bound := by
  rw [Storable, ← Size.plain_ok_iff, ← Size.rowMajor_ok_iff, exists_and_left]

theorem storable_pair {k l : Nat} (hk : k < Word.bound) (hl : l < Word.bound)
    (hkl : k * l < Word.bound) : Storable [k, l] := by
  refine storable_iff.mpr ⟨fun j => ?_, fun j => ?_⟩
  · match j with
    | 0 => simp [cells, Word.bound]
    | 1 => simpa [cells] using hk
    | j + 2 => simpa [cells] using hkl
  · match j with
    | 0 => simpa [cells] using hkl
    | 1 => simpa [cells] using hl
    | j + 2 => simp [cells, Word.bound]

theorem storable_singleton {n : Nat} (hn : n < Word.bound) : Storable [n] := by
  refine storable_iff.mpr ⟨fun j => ?_, fun j => ?_⟩
  · match j with
    | 0 => simp [cells, Word.bound]
    | j + 1 => simpa [cells] using hn
  · match j with
    | 0 => simpa [cells] using hn
    | j + 1 => simp [cells, Word.bound]

theorem cells_append (front back : Shape) :
    cells (front ++ back) = cells front * cells back := by
  induction front with
  | nil => exact (Nat.one_mul _).symm
  | cons n front ih =>
      show n * cells (front ++ back) = n * cells front * cells back
      rw [ih, Nat.mul_assoc]

/-- A buffer for cells of type `α` can be asked for and laid out. -/
structure Fillable (shape : Shape) (α : Type) [Cell α] : Prop where
  storable : shape.Storable
  reserved : Size.reserve shape.cells (Cell.width α) = .ok ()

theorem Storable.fillable_iff {shape : Shape} {α : Type} [Cell α] (h : shape.Storable) :
    shape.Fillable α ↔ shape.cells * Cell.width α < Nat.pow 2 63 := by
  rw [← Size.reserve_ok_iff]
  exact ⟨fun hfill => hfill.reserved, fun hreserved => ⟨h, hreserved⟩⟩

theorem Storable.product?_eq {shape : Shape} (h : shape.Storable) :
    Size.product? 1 shape = some shape.cells := by
  obtain ⟨strides, hplain, -⟩ := h
  rw [Size.plain] at hplain
  split at hplain
  next size hsize =>
      cases hplain
      exact hsize
  next => cases hplain

theorem Storable.checked {shape : Shape} (h : shape.Storable) :
    Size.checked shape = .ok shape.cells := by
  rw [Size.checked, h.product?_eq]

theorem cells_le_append (shape : Shape) {n : Nat} (hn : 0 < n) :
    cells shape ≤ cells (shape ++ [n]) := by
  rw [cells_append]
  exact Nat.le_mul_of_pos_right _ (by simpa [cells] using hn)

theorem Storable.init {shape : Shape} {n : Nat} (h : Storable (shape ++ [n])) (hn : 0 < n) :
    shape.Storable := by
  obtain ⟨htake, hdrop⟩ := storable_iff.mp h
  refine storable_iff.mpr ⟨fun k => ?_, fun k => ?_⟩
  · have hk := htake (min k shape.length)
    rwa [List.take_append_of_le_length (Nat.min_le_right _ _), ← List.take_eq_take_min] at hk
  · rcases Nat.le_total k shape.length with hk | hk
    · have hword := hdrop k
      rw [List.drop_append_of_le_length hk] at hword
      exact Nat.lt_of_le_of_lt (cells_le_append _ hn) hword
    · rw [List.drop_of_length_le hk]
      decide

namespace Fillable

variable {shape : Shape} {α : Type} [Cell α]

theorem product?_eq (h : shape.Fillable α) : Size.product? 1 shape = some shape.cells :=
  h.storable.product?_eq

theorem checked (h : shape.Fillable α) : Size.checked shape = .ok shape.cells :=
  h.storable.checked

/-- Nothing is lost in front of an extent that is not 0. -/
theorem init {n : Nat} (h : Fillable (shape ++ [n]) α) (hn : 0 < n) : shape.Fillable α :=
  ⟨h.storable.init hn, Size.reserve_mono (cells_le_append shape hn) h.reserved⟩

theorem zero_cons (h : shape.Fillable α) : Fillable (0 :: shape) α := by
  obtain ⟨htake, hdrop⟩ := storable_iff.mp h.storable
  have hzero : ∀ l : Shape, cells (0 :: l) = 0 := fun l => Nat.zero_mul _
  refine ⟨storable_iff.mpr ⟨fun k => ?_, fun k => ?_⟩, ?_⟩
  · cases k with
    | zero => exact htake 0
    | succ k =>
        rw [List.take_succ_cons, hzero]
        decide
  · cases k with
    | zero =>
        rw [List.drop_zero, hzero]
        decide
    | succ k => exact hdrop k
  · rw [hzero]
    exact Size.reserve_ok_iff.mpr (by simp)

end Fillable

/-- A buffer that grows as it is filled finds room for cells of type `α`, and they can be
laid out. -/
structure Growable (shape : Shape) (α : Type) [Cell α] : Prop where
  storable : shape.Storable
  grows : Size.grow shape.cells (Cell.width α) = .ok ()

/-- A fold finds room for the offsets of a block of this shape, and for its cells. -/
structure Blockable (shape : Shape) (α : Type) [Cell α] : Prop where
  offsets : Size.grow shape.cells (Cell.width Nat) = .ok ()
  reserved : Size.reserve shape.cells (Cell.width α) = .ok ()

theorem block_eq_ok_iff {shape : Shape} {α : Type} [Cell α] :
    Size.block shape.cells (Cell.width α) = .ok () ↔ shape.Blockable α := by
  rw [Size.block, bind_eq_ok]
  constructor
  · rintro ⟨_, hoffsets, hreserved⟩
    exact ⟨Size.growing_ok_iff.mp hoffsets, hreserved⟩
  · intro h
    exact ⟨(), Size.growing_ok_iff.mpr h.offsets, h.reserved⟩

namespace Blockable

variable {shape : Shape} {α : Type} [Cell α]

/-- The room for the offsets is at most twice what they take. -/
theorem of_lt (hoffsets : 2 * shape.cells * Cell.width Nat < Nat.pow 2 63)
    (hcells : shape.cells * Cell.width α < Nat.pow 2 63) : shape.Blockable α :=
  ⟨Size.grow_of_reserve (Size.reserve_ok_iff.mpr hoffsets), Size.reserve_ok_iff.mpr hcells⟩

theorem mono {shape' : Shape} (h : shape.Blockable α) (hle : shape'.cells ≤ shape.cells) :
    shape'.Blockable α :=
  ⟨Size.grow_mono hle h.offsets, Size.reserve_mono hle h.reserved⟩

/-- Where there is a buffer for many times as many truth values, there is room for a block. -/
theorem of_mul_lt {n : Nat} (h : n * shape.cells < Nat.pow 2 63)
    (hsmall : n < 16 → shape.cells ≤ 256) : shape.Blockable Bool := by
  have hbytes : 16 * shape.cells < Nat.pow 2 63 := by
    rcases Nat.lt_or_ge n 16 with hn | hn
    · exact Nat.lt_of_le_of_lt (Nat.mul_le_mul_left 16 (hsmall hn)) (by decide)
    · exact Nat.lt_of_le_of_lt (Nat.mul_le_mul_right _ hn) h
  refine .of_lt ?_ ?_
  · show 2 * shape.cells * 8 < _
    omega
  · show shape.cells * 1 < _
    omega

end Blockable

instance (shape : Shape) : Decidable shape.Storable :=
  decidable_of_iff ((∀ k ≤ shape.length, cells (shape.take k) < Word.bound) ∧
      ∀ k ≤ shape.length, cells (shape.drop k) < Word.bound) (by
    rw [storable_iff]
    refine and_congr ⟨fun h k => ?_, fun h k _ => h k⟩ ⟨fun h k => ?_, fun h k _ => h k⟩
    · rw [List.take_eq_take_min]
      exact h _ (Nat.min_le_right _ _)
    · rcases Nat.le_total k shape.length with hk | hk
      · exact h k hk
      · rw [List.drop_of_length_le hk, ← List.drop_length]
        exact h _ (Nat.le_refl _))

instance (shape : Shape) (α : Type) [Cell α] : Decidable (shape.Fillable α) :=
  decidable_of_iff (shape.Storable ∧ shape.cells * Cell.width α < Nat.pow 2 63)
    ⟨fun h => h.1.fillable_iff.mpr h.2, fun h => ⟨h.storable, h.storable.fillable_iff.mp h⟩⟩

-- one byte a cell is too much here, while cells without any bytes are never too many
example : Fillable [Nat.pow 2 63] Unit ∧ ¬Fillable [Nat.pow 2 63] Bool := by decide

instance (shape : Shape) (α : Type) [Cell α] : Decidable (shape.Growable α) :=
  decidable_of_iff (shape.Storable ∧ Size.room shape.cells * Cell.width α < Nat.pow 2 63)
    ⟨fun h => ⟨h.1, Size.grow_ok_iff.mpr h.2⟩, fun h =>
      ⟨h.storable, Size.grow_ok_iff.mp h.grows⟩⟩

instance (shape : Shape) (α : Type) [Cell α] : Decidable (shape.Blockable α) :=
  decidable_of_iff (Size.room shape.cells * Cell.width Nat < Nat.pow 2 63 ∧
      shape.cells * Cell.width α < Nat.pow 2 63)
    ⟨fun h => ⟨Size.grow_ok_iff.mpr h.1, Size.reserve_ok_iff.mpr h.2⟩, fun h =>
      ⟨Size.grow_ok_iff.mp h.offsets, Size.reserve_ok_iff.mp h.reserved⟩⟩

/-- A type of cells that takes at most half as much finds room where the other is
reserved. -/
theorem Fillable.growable {shape : Shape} {α β : Type} [Cell α] [Cell β]
    (h : shape.Fillable α) (hwidth : 2 * Cell.width β ≤ Cell.width α) : shape.Growable β := by
  refine ⟨h.storable, Size.grow_of_reserve (Size.reserve_ok_iff.mpr ?_)⟩
  have hbytes := Size.reserve_ok_iff.mp h.reserved
  calc 2 * shape.cells * Cell.width β = shape.cells * (2 * Cell.width β) := by
        rw [Nat.mul_comm 2, Nat.mul_assoc]
    _ ≤ shape.cells * Cell.width α := Nat.mul_le_mul_left _ hwidth
    _ < Nat.pow 2 63 := hbytes

end Shape

namespace Tensor

variable {shape : Shape} {f : Index → Except Fault α} {s : σ}

theorem fill_returns (h : shape.Storable) (hf : ∀ index ∈ shape.indices, ∃ a, f index = .ok a) :
    ∃ r, fill shape (fun index => (f index : Except Fault α)) s = .ok r s := by
  obtain ⟨cells, hcells⟩ := mapM_ok_of_forall hf
  obtain ⟨r, hr⟩ := dense_of_storable h cells.toArray
  have hmap : shape.indices.mapM (fun index => (liftM (f index) : Run σ α)) s = .ok cells s :=
    Run.mapM_eq_ok ((mapM_eq_ok.mp hcells).imp fun index a ha =>
      Run.lift_eq_ok.mpr ⟨ha, rfl⟩)
  refine ⟨r, ?_⟩
  rw [fill, Shape.collect_eq, map_eq_pure_bind]
  exact Run.bind_eq_ok.mpr ⟨cells.toArray, s,
    Run.bind_eq_ok.mpr ⟨cells, s, hmap, rfl⟩, Run.lift_eq_ok.mpr ⟨hr, rfl⟩⟩

/-- Where a growing buffer finds room, growing goes unnoticed. -/
theorem fill_grown [Cell α] (h : Size.grow shape.cells (Cell.width α) = .ok ())
    (f : Index → Run σ α) : fill shape (grown shape f) = fill shape f := by
  refine fill_congr fun index hindex => ?_
  have hplace : shape.indices.idxOf index + 1 ≤ shape.cells := by
    rw [← Shape.length_indices]
    exact List.idxOf_lt_length_iff.mpr hindex
  rw [grown, Size.grow_mono hplace h]
  exact bind_pure (f index)

theorem generate_returns [Cell α] (h : shape.Fillable α)
    (hf : ∀ index ∈ shape.indices, ∃ a, f index = .ok a) :
    ∃ r, generate shape (fun index => (f index : Except Fault α)) s = .ok r s := by
  obtain ⟨r, hr⟩ := fill_returns h.storable hf
  refine ⟨r, ?_⟩
  rw [generate_eq, h.product?_eq]
  exact Run.lift_bind_eq_ok.mpr ⟨(), h.reserved, hr⟩

/-- Without memory for the cells, generating stops before the first call. -/
theorem generate_overflows [Cell α] (h : shape.Storable)
    (hlarge : Size.reserve shape.cells (Cell.width α) ≠ .ok ()) (f : Index → Run σ α) :
    generate shape f = trap (.capacity shape.cells) := by
  rw [generate_eq, h.product?_eq]
  simp only [Size.reserve_error hlarge]
  rfl

/-! ## What has been laid out -/

variable {cell : Index → Run σ α}

/-- What was filled can be stored. -/
theorem storable_of_fill {r : Tensor α} {s s' : σ} (h : fill shape cell s = .ok r s') :
    shape.Storable := by
  obtain ⟨buffer, s₁, -, h⟩ := Run.bind_eq_ok.mp h
  obtain ⟨strides, hplain, hrow, -⟩ := dense_eq_ok (Run.lift_eq_ok.mp h).1
  exact ⟨strides, hplain, hrow⟩

/-- What was generated fits a buffer. -/
theorem fillable_of_generate [Cell α] {r : Tensor α} {s s' : σ}
    (h : generate shape cell s = .ok r s') : shape.Fillable α := by
  rw [generate_eq] at h
  split at h
  next => cases h
  next size hproduct =>
      obtain ⟨_, hreserved, hfill⟩ := Run.lift_bind_eq_ok.mp h
      obtain ⟨hcells, -⟩ := Size.product?_eq_some hproduct
      rw [Nat.one_mul] at hcells
      exact ⟨storable_of_fill hfill, hcells ▸ hreserved⟩

theorem fillable_of_fold [Cell α] [Cell β] {t : Tensor α} {axes : Nat}
    {f : List α → Run σ β} {r : Tensor β} {s s' : σ} (h : t.fold axes f s = .ok r s') :
    (t.outerShape axes).Fillable β := by
  unfold fold at h
  split at h
  next => cases h
  next =>
      obtain ⟨offsets, -, h⟩ := Run.lift_bind_eq_ok.mp h
      obtain ⟨_, -, h⟩ := Run.lift_bind_eq_ok.mp h
      obtain ⟨size, hsize, h⟩ := Run.lift_bind_eq_ok.mp h
      obtain ⟨_, hreserve, h⟩ := Run.lift_bind_eq_ok.mp h
      obtain ⟨hcells, -⟩ := Size.plain_ok hsize
      exact ⟨storable_of_fill h, hcells ▸ hreserve⟩

theorem blockable_of_fold [Cell α] [Cell β] {t : Tensor α} (ht : t.InBounds) {axes : Nat}
    {f : List α → Run σ β} {r : Tensor β} {s s' : σ} (h : t.fold axes f s = .ok r s') :
    (t.innerShape axes).Blockable α := by
  rw [fold_eq ht] at h
  split at h
  next =>
      obtain ⟨_, hblock, -⟩ := Run.lift_bind_eq_ok.mp h
      exact Shape.block_eq_ok_iff.mp hblock
  next => cases h

end Tensor

end TensorLogic
