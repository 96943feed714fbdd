import TensorLogic.Proofs.Agreement
import TensorLogic.Proofs.Indices
import TensorLogic.Tensor.Basic

/-!
# Storage in bounds

What a tensor promises about its buffer. `InBounds` asks that every index of the
shape lands inside the buffer, and that the farthest position of the view, zero
extents counted as 1, is a word. The second part matters for empty views only:
they have no index to speak of, but slicing one still moves its offset.

With it `get` is total on the shape (`InBounds.get_eq`), and outside the shape it
fails in a way that depends on nothing but the shape. A dense tensor is in
bounds, and its cell at the `k`-th index is the `k`-th entry of the buffer
(`dense_spec`): this is where the right-to-left strides and the left-to-right
order of the indices are brought together.
-/

namespace TensorLogic

/-! ## Sizes -/

namespace Size

theorem word_ok {n m : Nat} (h : Word.check n = .ok m) : m = n := by
  rw [Word.check] at h
  split at h
  · cases h
    rfl
  · cases h

theorem product?_eq_some {acc n : Nat} {shape : Shape} (h : product? acc shape = some n) :
    n = acc * shape.cells ∧ (acc < Word.bound → n < Word.bound) := by
  induction shape generalizing acc with
  | nil =>
      simp only [product?, Option.some.injEq] at h
      subst h
      exact ⟨by simp [Shape.cells], id⟩
  | cons m rest ih =>
      simp only [product?] at h
      split at h
      next hlt =>
          obtain ⟨hn, hbound⟩ := ih h
          refine ⟨?_, fun _ => hbound hlt⟩
          rw [hn, Shape.cells, Shape.cells, List.foldr_cons, Nat.mul_assoc]
      next => cases h

theorem plain_ok {shape : Shape} {n : Nat} (h : plain shape = .ok n) :
    n = shape.cells ∧ n < Word.bound := by
  unfold plain at h
  split at h
  next m hm =>
      obtain ⟨hn, hbound⟩ := product?_eq_some hm
      cases h
      exact ⟨by omega, hbound (by decide)⟩
  next => cases h

theorem checked_ok {shape : Shape} {n : Nat} (h : checked shape = .ok n) :
    n = shape.cells ∧ n < Word.bound ∧ plain shape = .ok n := by
  unfold checked at h
  split at h
  next m hm =>
      obtain ⟨hn, hbound⟩ := product?_eq_some hm
      cases h
      exact ⟨by omega, hbound (by decide), by simp [plain, hm]⟩
  next => cases h

theorem rowMajor_cons_ok {n : Nat} {rest : Shape} {strides : List Nat} {whole : Nat}
    (h : rowMajor (n :: rest) = .ok (strides, whole)) :
    ∃ behind step, rowMajor rest = .ok (behind, step) ∧ strides = step :: behind ∧
      whole = step * n ∧ step * n < Word.bound := by
  rw [rowMajor] at h
  simp only [bind_eq_ok] at h
  obtain ⟨⟨behind, step⟩, hrest, whole', hcheck, h⟩ := h
  unfold Word.check at hcheck
  split at hcheck
  next hlt =>
      cases hcheck
      cases h
      exact ⟨_, _, hrest, rfl, rfl, hlt⟩
  next => cases hcheck

end Size

/-- A tensor of the shape can own its cells. -/
def Shape.Storable (shape : Shape) : Prop :=
  ∃ strides, Size.plain shape = .ok shape.cells ∧
    Size.rowMajor shape = .ok (strides, shape.cells)

/-! ## Positions -/

namespace Tensor

variable {α : Type}

/-- The farthest position of a view from its offset. -/
def reach (shape : Shape) (strides : List Nat) : Nat :=
  dot (shape.map (· - 1)) strides

/-- The view stays inside its buffer, and inside the word. -/
structure InBounds (t : Tensor α) : Prop where
  strides_length : t.strides.length = t.shape.length
  inside : ∀ index ∈ t.shape.indices, t.offset + dot index t.strides < t.buffer.size
  reach_lt : t.offset + reach t.shape t.strides < Word.bound

theorem dot_le_dot {i j : Index} (h : List.Forall₂ (· ≤ ·) i j) (strides : List Nat) :
    dot i strides ≤ dot j strides := by
  induction h generalizing strides with
  | nil => exact Nat.le_refl _
  | cons hij _ ih =>
      cases strides with
      | nil => exact Nat.le_refl _
      | cons s strides =>
          simp only [dot]
          exact Nat.add_le_add (Nat.mul_le_mul_right s hij) (ih strides)

/-- Coordinates and strides are paired off from the front. -/
theorem dot_append_eq (i j : Index) (strides : List Nat) :
    dot (i ++ j) strides = dot i (strides.take i.length) + dot j (strides.drop i.length) := by
  induction i generalizing strides with
  | nil => simp [dot]
  | cons a i ih =>
      cases strides with
      | nil => simp [dot]
      | cons s strides => simp [dot, ih, Nat.add_assoc]

theorem dot_append {i j : Index} {strides behind : List Nat}
    (h : i.length = strides.length) :
    dot (i ++ j) (strides ++ behind) = dot i strides + dot j behind := by
  rw [dot_append_eq, h, List.take_left, List.drop_left]

theorem dot_replicate_zero (rank : Nat) (strides : List Nat) :
    dot (List.replicate rank 0) strides = 0 := by
  induction rank generalizing strides with
  | zero => rfl
  | succ rank ih =>
      cases strides with
      | nil => rfl
      | cons s strides => simp [List.replicate_succ, dot, ih]

theorem dot_le_reach {shape : Shape} {index : Index} (h : index ∈ shape.indices)
    (strides : List Nat) : dot index strides ≤ reach shape strides := by
  refine dot_le_dot ?_ strides
  rw [List.forall₂_map_right_iff]
  exact (Shape.mem_indices.mp h).imp fun i n hi => by omega

/-- The last index of a shape without zero extent, which is where the reach is
attained. -/
theorem last_mem_indices {shape : Shape} (h : 0 ∉ shape) :
    shape.map (· - 1) ∈ shape.indices := by
  rw [Shape.mem_indices, List.forall₂_map_left_iff, List.forall₂_same]
  intro n hn
  have : n ≠ 0 := fun hzero => h (hzero ▸ hn)
  omega

/-- One position decides whether a view is in bounds. -/
theorem inBounds_of_reach {t : Tensor α} (hlen : t.strides.length = t.shape.length)
    (hword : t.offset + reach t.shape t.strides < Word.bound)
    (hin : 0 ∉ t.shape → t.offset + reach t.shape t.strides < t.buffer.size) :
    t.InBounds := by
  refine ⟨hlen, fun index hindex => ?_, hword⟩
  have hzero : 0 ∉ t.shape := fun h => by
    rw [Shape.indices_eq_nil_iff.mpr h] at hindex
    cases hindex
  have := dot_le_reach hindex t.strides
  have := hin hzero
  omega

theorem advancePosition_ok {whole : Index} {shape extents : Shape} {index : Index}
    {strides : List Nat} {pos : Nat} (hlen : strides.length = extents.length)
    (hindex : index ∈ Shape.indices extents) (hpos : pos + dot index strides < Word.bound) :
    advancePosition whole shape index extents strides pos =
      .ok (pos + dot index strides) := by
  induction extents generalizing index strides pos with
  | nil =>
      cases List.forall₂_nil_right_iff.mp (Shape.mem_indices.mp hindex)
      simp [advancePosition, dot]
  | cons n extents ih =>
      match index, strides, hlen with
      | [], _, _ => simpa using Shape.length_of_mem_indices hindex
      | i :: index, s :: strides, hlen =>
          obtain ⟨hi, hrest⟩ := Shape.cons_mem_indices.mp hindex
          simp only [dot] at hpos ⊢
          have hword : pos + i * s < Word.bound := by omega
          rw [advancePosition, if_pos hi, Word.check, if_pos hword]
          refine (ih (Nat.succ.inj hlen) hrest (by omega)).trans ?_
          rw [Nat.add_assoc]

theorem advancePosition_error {whole : Index} {shape extents : Shape} {index : Index}
    {strides : List Nat} {pos : Nat} (hlen : strides.length = extents.length)
    (hrank : index.length = extents.length) (hindex : index ∉ extents.indices)
    (hpos : pos + reach extents strides < Word.bound) :
    advancePosition whole shape index extents strides pos =
      trap (.outsideShape whole shape) := by
  induction extents generalizing index strides pos with
  | nil =>
      cases List.eq_nil_of_length_eq_zero hrank
      simp [Shape.indices] at hindex
  | cons n extents ih =>
      obtain ⟨i, index, rfl⟩ := List.exists_cons_of_length_eq_add_one hrank
      obtain ⟨s, strides, rfl⟩ := List.exists_cons_of_length_eq_add_one hlen
      rw [advancePosition]
      split
      next hi =>
          have hrest : index ∉ Shape.indices extents := fun h =>
            hindex (Shape.cons_mem_indices.mpr ⟨hi, h⟩)
          simp only [reach, List.map_cons, dot] at hpos
          have hstep : i * s ≤ (n - 1) * s := Nat.mul_le_mul_right s (by omega)
          have hword : pos + i * s < Word.bound := by omega
          rw [Word.check, if_pos hword]
          refine ih (Nat.succ.inj hlen) (Nat.succ.inj hrank) hrest ?_
          simp only [reach]
          omega
      next => rfl

namespace InBounds

variable {t : Tensor α}

theorem position_eq (h : t.InBounds) {index : Index} (hindex : index ∈ t.shape.indices) :
    t.position index = .ok (t.offset + dot index t.strides) := by
  have := dot_le_reach hindex t.strides
  have := h.reach_lt
  rw [position, rank, if_pos (Shape.length_of_mem_indices hindex)]
  exact advancePosition_ok h.strides_length hindex (by omega)

theorem get_eq (h : t.InBounds) {index : Index} (hindex : index ∈ t.shape.indices) :
    t.get index = t.cellAt (t.offset + dot index t.strides) := by
  rw [get, h.position_eq hindex]
  rfl

theorem cellAt_ok {pos : Nat} (h : pos < t.buffer.size) :
    t.cellAt pos = .ok t.buffer[pos] := by
  simp [cellAt, h]

theorem get_ok (h : t.InBounds) {index : Index} (hindex : index ∈ t.shape.indices) :
    ∃ a, t.get index = .ok a :=
  ⟨_, (h.get_eq hindex).trans (cellAt_ok (h.inside index hindex))⟩

/-- Outside the shape a read fails for a reason that only the shape decides. -/
theorem get_error (h : t.InBounds) {index : Index} (hindex : index ∉ t.shape.indices) :
    t.get index = if index.length = t.shape.length then trap (.outsideShape index t.shape)
      else trap (.wrongRank index t.shape) := by
  rw [get, position, rank]
  split
  next hrank =>
      rw [advancePosition_error h.strides_length hrank hindex h.reach_lt]
      rfl
  next => rfl

end InBounds

/-! ## Dense and constant tensors -/

theorem rowMajor_reach {shape : Shape} {strides : List Nat} {whole : Nat}
    (h : Size.rowMajor shape = .ok (strides, whole)) :
    strides.length = shape.length ∧ whole = shape.cells ∧ whole < Word.bound ∧
      reach shape strides < Word.bound ∧
      (0 ∉ shape → reach shape strides + 1 = shape.cells) := by
  induction shape generalizing strides whole with
  | nil =>
      rw [Size.rowMajor] at h
      cases h
      simp [reach, dot, Shape.cells, Word.bound]
  | cons n rest ih =>
      obtain ⟨behind, step, hrest, rfl, rfl, hlt⟩ := Size.rowMajor_cons_ok h
      obtain ⟨hlen, hstep, hword, hreach, hlast⟩ := ih hrest
      have hcells : Shape.cells (n :: rest) = n * step := by rw [hstep]; rfl
      have hcons : reach (n :: rest) (step :: behind) = (n - 1) * step + reach rest behind :=
        rfl
      refine ⟨by simp [hlen], by rw [hcells, Nat.mul_comm], hlt, ?_, ?_⟩
      · by_cases hzero : 0 ∈ rest
        · have : step = 0 := by
            rw [hstep, ← Shape.length_indices, Shape.indices_eq_nil_iff.mpr hzero]
            rfl
          subst this
          simpa [hcons] using hreach
        · have := hlast hzero
          rw [hcons]
          cases n with
          | zero => simpa using hreach
          | succ n =>
              have : step * (n + 1) = n * step + step := by
                rw [Nat.mul_succ, Nat.mul_comm]
              simp only [Nat.add_sub_cancel]
              omega
      · intro hzero
        rw [List.mem_cons, not_or] at hzero
        have := hlast hzero.2
        rw [hcons, hcells]
        cases n with
        | zero => exact absurd rfl hzero.1
        | succ n =>
            rw [Nat.succ_mul]
            simp only [Nat.add_sub_cancel]
            omega

/-- Blocks of one length, laid end to end, are addressed by block and place. -/
theorem getElem?_flatMap_range {β : Type} {f : Nat → List β} {len n i k : Nat}
    (hlen : ∀ i, (f i).length = len) (hi : i < n) (hk : k < len) :
    ((List.range n).flatMap f)[i * len + k]? = (f i)[k]? := by
  induction n with
  | zero => omega
  | succ n ih =>
      have hfront : ((List.range n).flatMap f).length = n * len := by
        rw [List.length_flatMap]
        simp only [hlen, List.map_const', List.length_range, List.sum_replicate_nat]
      rw [List.range_succ, List.flatMap_append]
      rcases Nat.lt_or_ge i n with hlt | hge
      · have hle : i * len + k < n * len :=
          calc i * len + k < i * len + len := by omega
            _ = (i + 1) * len := by rw [Nat.succ_mul]
            _ ≤ n * len := Nat.mul_le_mul_right len hlt
        rw [List.getElem?_append_left (by omega)]
        exact ih hlt
      · obtain rfl : i = n := by omega
        rw [List.getElem?_append_right (by omega), hfront]
        simp

/-- The strides of a dense tensor count the row-major order. -/
theorem getElem?_indices_dot {shape : Shape} {strides : List Nat} {whole : Nat}
    (h : Size.rowMajor shape = .ok (strides, whole)) {index : Index}
    (hindex : index ∈ shape.indices) :
    shape.indices[dot index strides]? = some index := by
  induction shape generalizing strides whole index with
  | nil =>
      cases List.forall₂_nil_right_iff.mp (Shape.mem_indices.mp hindex)
      rfl
  | cons n rest ih =>
      obtain ⟨behind, step, hrest, rfl, -, -⟩ := Size.rowMajor_cons_ok h
      obtain ⟨-, hstep, -⟩ := rowMajor_reach hrest
      match index with
      | [] => simpa using Shape.length_of_mem_indices hindex
      | i :: index =>
          obtain ⟨hi, hbehind⟩ := Shape.cons_mem_indices.mp hindex
          have hget := ih hrest hbehind
          have hlt : dot index behind < step := by
            rw [hstep, ← Shape.length_indices]
            exact (List.getElem?_eq_some_iff.mp hget).1
          have hlen : ∀ i, ((Shape.indices rest).map (i :: ·)).length = step := fun i => by
            rw [List.length_map, Shape.length_indices, hstep]
          simp only [Shape.indices, dot]
          rw [getElem?_flatMap_range hlen hi hlt, List.getElem?_map, hget]
          rfl

theorem dense_eq_ok {shape : Shape} {buffer : Array α} {t : Tensor α}
    (h : dense shape buffer = .ok t) :
    ∃ strides, Size.plain shape = .ok shape.cells ∧
      Size.rowMajor shape = .ok (strides, shape.cells) ∧
      t = { shape, strides, offset := 0, buffer } := by
  unfold dense at h
  simp only [bind_eq_ok] at h
  obtain ⟨n, hplain, ⟨strides, whole⟩, hrow, h⟩ := h
  cases h
  obtain ⟨-, hwhole, -⟩ := rowMajor_reach hrow
  obtain ⟨hn, -⟩ := Size.plain_ok hplain
  exact ⟨strides, hn ▸ hplain, hwhole ▸ hrow, rfl⟩

/-- A dense tensor is in bounds, and its cells stand in row-major order. -/
theorem dense_spec {shape : Shape} {buffer : Array α} {t : Tensor α}
    (h : dense shape buffer = .ok t) (hsize : buffer.size = shape.cells) :
    t.shape = shape ∧ t.InBounds ∧
      ∀ (k : Nat) (hk : k < buffer.size) (index : Index),
        shape.indices[k]? = some index → t.get index = .ok buffer[k] := by
  obtain ⟨strides, -, hrow, rfl⟩ := dense_eq_ok h
  obtain ⟨hlen, -, -, hreach, hlast⟩ := rowMajor_reach hrow
  have hbounds : InBounds { shape, strides, offset := 0, buffer } := by
    refine inBounds_of_reach hlen (by simpa using hreach) fun hzero => ?_
    have := hlast hzero
    simp only [Nat.zero_add, hsize]
    omega
  refine ⟨rfl, hbounds, fun k hk index hindex => ?_⟩
  have hmem : index ∈ shape.indices := List.mem_of_getElem? hindex
  have hpos : dot index strides = k := by
    have hdot := getElem?_indices_dot hrow hmem
    have hlt : k < shape.indices.length := (List.getElem?_eq_some_iff.mp hindex).1
    exact ((List.getElem?_inj hlt (Shape.nodup_indices shape)).mp
      (hindex.trans hdot.symm)).symm
  rw [hbounds.get_eq hmem]
  simp only [Nat.zero_add, hpos]
  exact InBounds.cellAt_ok hk

theorem dense_of_storable {α : Type} {shape : Shape} (h : shape.Storable)
    (buffer : Array α) : ∃ t, dense shape buffer = .ok t := by
  obtain ⟨strides, hplain, hrow⟩ := h
  refine ⟨{ shape, strides, offset := 0, buffer }, ?_⟩
  rw [dense, hplain, hrow]
  rfl

theorem dot_zero_strides (index : Index) (n : Nat) : dot index (List.replicate n 0) = 0 := by
  induction n generalizing index with
  | zero => cases index <;> rfl
  | succ n ih => cases index <;> simp [dot, List.replicate_succ, ih]

theorem constant_spec (shape : Shape) (value : α) :
    (constant shape value).InBounds ∧
      ∀ index ∈ shape.indices, (constant shape value).get index = .ok value := by
  have hbounds : (constant shape value).InBounds := by
    refine inBounds_of_reach (by simp [constant]) ?_ fun _ => ?_
    · simp [constant, reach, dot_zero_strides, Word.bound]
    · simp [constant, reach, dot_zero_strides]
  refine ⟨hbounds, fun index hindex => ?_⟩
  rw [hbounds.get_eq hindex]
  simp [constant, cellAt, dot_zero_strides]

end Tensor

end TensorLogic
