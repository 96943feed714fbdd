import TensorLogic.Proofs.Folds
import TensorLogic.Proofs.Overruns

/-!
# The walk and the storage keep one order

Two loops that never meet decide where a cell ends up. The walk steps an index like an
odometer, carrying from the last axis to the front. The strides are products taken from
the last axis to the front as well, ahead of any walk. Both come down to the list
`Shape.indices`: step `k` of the walk delivers entry `k` (`Walk.result_eq`), and the
strides put entry `k` at position `k` (`Walk.dot_result`).

What the list holds is said without it. A walk delivers the indices below the shape, each
once and in lexicographic order, and then nothing for ever (`Walk.enumerates`). It takes
no sum but a coordinate plus 1, and the coordinate lies below its extent, so the sums are
words whenever the extents are (`Walk.advanceWord_after`). A tensor that is generated
therefore gets its cells in the order of the walk, and the cells of any tensor, read off
in that order, make up a tensor equal to it (`rowMajor_walk`).
-/

namespace TensorLogic

/-! ## What the walk delivers -/

namespace Walk

/-- The walk after `k` steps. -/
def after (w : Walk) : Nat → Walk
  | 0 => w
  | k + 1 => (after w k).advance.2

/-- What step `k` of the walk over the shape delivers, counted from 0. -/
def result (shape : Shape) (k : Nat) : Option Index :=
  ((ofShape shape).after k).advance.1

theorem at_after (shape : Shape) (k : Nat) : At shape k ((ofShape shape).after k) := by
  induction k with
  | zero => exact at_ofShape shape
  | succ k ih => exact (advance_at ih).2

theorem result_eq (shape : Shape) (k : Nat) : result shape k = shape.indices[k]? :=
  (advance_at (at_after shape k)).1

theorem result_eq_none_iff {shape : Shape} {k : Nat} :
    result shape k = none ↔ shape.cells ≤ k := by
  rw [result_eq, List.getElem?_eq_none_iff, Shape.length_indices]

end Walk

theorem Shape.pairwise_indices (shape : Shape) :
    shape.indices.Pairwise (List.Lex (· < ·)) := by
  induction shape with
  | nil => exact List.pairwise_singleton _ _
  | cons n rest ih =>
      rw [indices, List.pairwise_flatMap]
      constructor
      · intro i _
        rw [List.pairwise_map]
        exact ih.imp fun h => .cons h
      · refine List.pairwise_lt_range.imp fun {i j} hij => ?_
        intro x hx y hy
        obtain ⟨behind, -, rfl⟩ := List.mem_map.mp hx
        obtain ⟨behind', -, rfl⟩ := List.mem_map.mp hy
        exact .rel hij

/-- The results are the indices below the shape, each once and in lexicographic order, and
behind them there is nothing for ever. -/
structure Enumerates (shape : Shape) (result : Nat → Option Index) : Prop where
  below (index : Index) : (∃ k, result k = some index) ↔ List.Forall₂ (· < ·) index shape
  once {j k : Nat} {index : Index} : result j = some index → result k = some index → j = k
  increasing {j k : Nat} {x y : Index} :
    j < k → result j = some x → result k = some y → List.Lex (· < ·) x y
  ends : ∃ k, result k = none
  fused {j k : Nat} : result j = none → j ≤ k → result k = none

theorem Walk.enumerates (shape : Shape) : Enumerates shape (Walk.result shape) where
  below index := by
    rw [← Shape.mem_indices, List.mem_iff_getElem?]
    simp only [result_eq]
  once {j k index} hj hk := by
    rw [result_eq] at hj hk
    have hlt := (List.getElem?_eq_some_iff.mp hj).1
    exact (List.getElem?_inj hlt (Shape.nodup_indices shape)).mp (hj.trans hk.symm)
  increasing {j k x y} hjk hj hk := by
    rw [result_eq] at hj hk
    obtain ⟨hjlt, rfl⟩ := List.getElem?_eq_some_iff.mp hj
    obtain ⟨hklt, rfl⟩ := List.getElem?_eq_some_iff.mp hk
    exact List.pairwise_iff_getElem.mp shape.pairwise_indices j k hjlt hklt hjk
  ends := ⟨shape.cells, result_eq_none_iff.mpr (Nat.le_refl _)⟩
  fused {j k} hj hjk := by
    rw [result_eq_none_iff] at hj ⊢
    omega

/-! ## The sums of the walk -/

/-- The next index with its sums taken in the word. The axes are tried from the last one to
the front, and a coordinate is raised only where no axis behind it could be. -/
def Index.nextWord? : Shape → Index → Except Fault (Option Index)
  | n :: shape, i :: index => do
      match ← Index.nextWord? shape index with
      | some behind => .ok (some (i :: behind))
      | none =>
          let raised ← Word.check (i + 1)
          .ok (if raised < n then some (raised :: index.map fun _ => 0) else none)
  | _, _ => .ok none

/-- One step of the walk with its sums taken in the word. -/
def Walk.advanceWord (w : Walk) : Except Fault (Option Index × Walk) :=
  match w.phase with
  | .inside => do
      match ← Index.nextWord? w.shape w.index with
      | some index => .ok (some index, { w with index })
      | none => .ok (none, { w with phase := .finished })
  | _ => .ok w.advance

theorem Index.nextWord?_eq {shape : Shape} {index : Index} (hindex : index ∈ shape.indices)
    (hword : ∀ n ∈ shape, n < Word.bound) :
    Index.nextWord? shape index = .ok (Index.next? shape index) := by
  induction shape generalizing index with
  | nil => rfl
  | cons n rest ih =>
      obtain ⟨i, behind, rfl⟩ :=
        List.exists_cons_of_length_eq_add_one (Shape.length_of_mem_indices hindex)
      obtain ⟨hi, hbehind⟩ := Shape.cons_mem_indices.mp hindex
      obtain ⟨hn, hrest⟩ := List.forall_mem_cons.mp hword
      have hraised : Word.check (i + 1) = .ok (i + 1) := by
        rw [Word.check, if_pos (by omega)]
      rw [Index.nextWord?, Index.next?, ih hbehind hrest]
      cases Index.next? rest behind with
      | some next => rfl
      | none =>
          show (Word.check (i + 1) >>= fun raised => _) = _
          rw [hraised]
          rfl

theorem Walk.advanceWord_after {shape : Shape} (hword : ∀ n ∈ shape, n < Word.bound)
    (k : Nat) :
    ((ofShape shape).after k).advanceWord = .ok ((ofShape shape).after k).advance := by
  obtain ⟨hshape, -, hinside, -⟩ := at_after shape k
  generalize (ofShape shape).after k = w at hshape hinside ⊢
  obtain ⟨whole, index, phase⟩ := w
  simp only at hshape hinside
  subst hshape
  cases phase with
  | start => rfl
  | finished => rfl
  | inside =>
      obtain ⟨j, -, hj⟩ := hinside rfl
      have hnext := Index.nextWord?_eq (List.mem_of_getElem? hj) hword
      simp only [advanceWord, advance, hnext]
      show (match Index.next? whole index with | some _ => _ | none => _) = _
      cases Index.next? whole index <;> rfl

/-! ## The positions of the results -/

namespace Walk

theorem dot_result {shape : Shape} {strides : List Nat} {whole : Nat}
    (h : Size.rowMajor shape = .ok (strides, whole)) {k : Nat} {index : Index}
    (hk : result shape k = some index) : Tensor.dot index strides = k := by
  have hmem : index ∈ shape.indices := by
    rw [result_eq] at hk
    exact List.mem_of_getElem? hk
  refine (enumerates shape).once ?_ hk
  rw [result_eq]
  exact Tensor.getElem?_indices_dot h hmem

/-- The result of step `k` is at position `k` of a dense tensor. -/
theorem position_result {α : Type} {shape : Shape} {buffer : Array α} {t : Tensor α}
    (h : Tensor.dense shape buffer = .ok t) {k : Nat} {index : Index}
    (hk : result shape k = some index) : t.position index = .ok k := by
  obtain ⟨strides, hplain, hrow, rfl⟩ := Tensor.dense_eq_ok h
  obtain ⟨hlen, -⟩ := Tensor.rowMajor_reach hrow
  have hdot := dot_result hrow hk
  rw [result_eq] at hk
  obtain ⟨hlt, -⟩ := List.getElem?_eq_some_iff.mp hk
  have hmem := List.mem_of_getElem? hk
  rw [Shape.length_indices] at hlt
  have hword := (Size.plain_ok hplain).2
  rw [Tensor.position, Tensor.rank, if_pos (Shape.length_of_mem_indices hmem),
    Tensor.advancePosition_ok hlen hmem (by simp only [hdot]; omega), hdot, Nat.zero_add]

end Walk

/-! ## Tensors made in the order of the walk -/

namespace Tensor

variable {α σ : Type} [Cell α] {shape : Shape}

/-- The calls of a generated tensor: one for each index, in row-major order, and each cell is
what the call on its index returned. -/
theorem generate_calls (h : shape.Fillable α) (f : Index → Run σ α) (s : σ) :
    (∀ fault s', shape.indices.mapM f s = .error fault s' →
      generate shape f s = .error fault s') ∧
    ∀ values s', shape.indices.mapM f s = .ok values s' →
      ∃ t, generate shape f s = .ok t s' ∧ t.shape = shape ∧
        List.Forall₂ (fun index value => t.get index = .ok value) shape.indices values ∧
        ∀ log, generate shape (Run.logged f) (s, log) = .ok t (s', log ++ shape.indices) := by
  constructor
  · intro fault s' hrun
    rw [generate_eq_bind h]
    exact Run.bind_error hrun
  · intro values s' hrun
    obtain ⟨t, hdense, hshape, -, hget⟩ := dense_cells h.storable (Run.mapM_ok hrun).length_eq
    refine ⟨t, ?_, hshape, hget, fun log => ?_⟩
    · rw [generate_eq_bind h]
      exact Run.bind_eq_ok.mpr ⟨values, s', hrun, Run.lift_eq_ok.mpr ⟨hdense, rfl⟩⟩
    · rw [generate_eq_bind h]
      exact Run.bind_eq_ok.mpr ⟨values, _, Run.mapM_logged hrun log,
        Run.lift_eq_ok.mpr ⟨hdense, rfl⟩⟩

/-- Copying the cells of a tensor takes a buffer that grows, and nothing else. -/
theorem Readable.toVec_eq {t : Tensor α} (ht : t.Readable) :
    ∃ cells, List.Forall₂ (fun index cell => t.get index = .ok cell) t.shape.indices cells ∧
      t.toVec = (do
        Size.growing t.shape.cells (Cell.width α)
        .ok cells.toArray) := by
  obtain ⟨cells, hcells⟩ := mapM_ok_of_forall ht
  have hread := mapM_eq_ok.mp hcells
  refine ⟨cells, hread, ?_⟩
  rw [toVec, gather_read hread, Run.value_bind, Run.value_lift]
  cases Size.growing t.shape.cells (Cell.width α) <;> rfl

/-- The cells of a tensor, copied and laid out densely, are read back where they were. -/
theorem Readable.ofCells_toVec {t : Tensor α} (ht : t.Readable) (h : t.shape.Growable α) :
    ∃ cells u, t.toVec = .ok cells ∧ ofCells t.shape cells = .ok u ∧ u.shape = t.shape ∧
      ∀ index ∈ t.shape.indices, ∃ a, u.get index = .ok a ∧ t.get index = .ok a := by
  obtain ⟨cells, hread, hvec⟩ := ht.toVec_eq
  rw [Size.growing_ok_iff.mpr h.grows] at hvec
  have hsize : cells.toArray.size = t.shape.cells := by
    rw [List.size_toArray, ← hread.length_eq, Shape.length_indices]
  obtain ⟨u, hdense, hshape, -, hget⟩ := dense_cells h.storable hread.length_eq
  refine ⟨cells.toArray, u, hvec, ?_, hshape, forall₂_both hget hread⟩
  rw [ofCells_eq h.storable, if_pos hsize]
  exact hdense

/-- Without room for all cells, copying them stops while the buffer grows. -/
theorem Readable.toVec_overflows {t : Tensor α} (ht : t.Readable)
    (h : Size.grow t.shape.cells (Cell.width α) ≠ .ok ()) :
    ∃ entries, t.toVec = trap (.capacity entries) := by
  obtain ⟨cells, -, hvec⟩ := ht.toVec_eq
  have hfails : FailsBy (fun fault => ∃ entries, fault = .trapped (.capacity entries))
      (Size.growing t.shape.cells (Cell.width α)) := Size.growing_failsBy fun n => ⟨n, rfl⟩
  rw [hvec]
  cases hgrown : Size.growing t.shape.cells (Cell.width α) with
  | ok _ => exact absurd (Size.growing_ok_iff.mp hgrown) h
  | error fault =>
      obtain ⟨entries, rfl⟩ := hfails fault hgrown
      exact ⟨entries, rfl⟩

end Tensor

open Tensor

/-- A walk delivers the indices below its shape, each once and in lexicographic order, and
nothing behind them; that is one empty index for rank 0 and none where an extent is 0. No step
leaves the word if the extents are words. Where size and strides are words too, the result of
step `k` is at position `k`. Generating then makes one call for each result, in the order of
the walk, and reads back at an index what the call on it returned, provided a buffer for the
cells can be asked for; otherwise it traps ahead of the first call. And the cells of a
contained tensor, copied one by one, make up a tensor equal to it, provided the buffer for the
copies can grow to hold them; otherwise copying traps. -/
theorem rowMajor_walk {α : Type} [Cell α] (shape : Shape) :
    Enumerates shape (Walk.result shape) ∧
    (shape = [] → Walk.result shape 0 = some [] ∧ Walk.result shape 1 = none) ∧
    (0 ∈ shape → ∀ k, Walk.result shape k = none) ∧
    ((∀ n ∈ shape, n < Word.bound) → ∀ k,
      ((Walk.ofShape shape).after k).advanceWord =
        .ok ((Walk.ofShape shape).after k).advance) ∧
    (shape.Storable →
      (∃ strides, Size.rowMajor shape = .ok (strides, shape.cells) ∧
        ∀ k index, Walk.result shape k = some index → dot index strides = k) ∧
      (∀ buffer : Array α, ∃ t, dense shape buffer = .ok t ∧
        ∀ k index, Walk.result shape k = some index → t.position index = .ok k) ∧
      (∀ (σ : Type) (f : Index → Run σ α) (s : σ),
        (Nat.pow 2 63 ≤ shape.cells * Cell.width α →
          generate shape f = trap (.capacity shape.cells)) ∧
        (shape.cells * Cell.width α < Nat.pow 2 63 →
          ∃ calls : List Index, (∀ k, calls[k]? = Walk.result shape k) ∧
            (∀ fault s', calls.mapM f s = .error fault s' →
              generate shape f s = .error fault s') ∧
            ∀ values s', calls.mapM f s = .ok values s' →
              ∃ t, generate shape f s = .ok t s' ∧ t.shape = shape ∧
                List.Forall₂ (fun index value => t.get index = .ok value) calls values ∧
                ∀ log, generate shape (Run.logged f) (s, log) = .ok t (s', log ++ calls))) ∧
      ∀ t : Tensor α, t.shape = shape → t.Contained →
        (Size.room shape.cells * Cell.width α < Nat.pow 2 63 →
          ∃ cells u, t.toVec = .ok cells ∧ ofCells shape cells = .ok u ∧
            ∀ [BEq α] [ReflBEq α], equal u t = .ok true) ∧
        (Nat.pow 2 63 ≤ Size.room shape.cells * Cell.width α →
          ∃ entries, t.toVec = trap (.capacity entries))) := by
  refine ⟨Walk.enumerates shape, ?_, ?_, Walk.advanceWord_after, fun h => ⟨?_, ?_, ?_, ?_⟩⟩
  · rintro rfl
    exact ⟨rfl, rfl⟩
  · intro hzero k
    rw [Walk.result_eq_none_iff, Shape.cells_eq_zero_iff.mpr hzero]
    exact Nat.zero_le k
  · obtain ⟨strides, -, hrow⟩ := h
    exact ⟨strides, hrow, fun k index hk => Walk.dot_result hrow hk⟩
  · intro buffer
    obtain ⟨t, ht⟩ := dense_of_storable h buffer
    exact ⟨t, ht, fun k index hk => Walk.position_result ht hk⟩
  · intro σ f s
    constructor
    · intro hlarge
      exact generate_overflows h (mt Size.reserve_ok_iff.mp (Nat.not_lt.mpr hlarge)) f
    · intro hsmall
      refine ⟨shape.indices, fun k => (Walk.result_eq shape k).symm, ?_⟩
      exact generate_calls (h.fillable_iff.mpr hsmall) f s
  · rintro t rfl ht
    constructor
    · intro hroom
      obtain ⟨cells, u, hcells, hu, hshape, hget⟩ :=
        ht.readable.ofCells_toVec ⟨h, Size.grow_ok_iff.mpr hroom⟩
      refine ⟨cells, u, hcells, hu, ?_⟩
      intro _ _
      rw [equal_eq_true_iff, hshape]
      refine ⟨rfl, fun index hindex => ?_⟩
      obtain ⟨a, ha, ha'⟩ := hget index hindex
      exact ⟨a, a, ha, ha', BEq.rfl⟩
    · intro hlarge
      exact ht.readable.toVec_overflows (mt Size.grow_ok_iff.mp (Nat.not_lt.mpr hlarge))

/-- Three rows of two, stored column by column. -/
def storedByColumns : Tensor Nat :=
  { shape := [3, 2], strides := [1, 3], offset := 0, buffer := #[1, 2, 3, 4, 5, 6] }

/-- The number of the call, which is the state. -/
def callNumber (_ : Index) : Run Nat Nat := fun calls => .ok calls (calls + 1)

theorem rowMajor_walk_storedByColumns :
    (∀ k, ((Walk.ofShape [18446744073709551615, 2]).after k).advanceWord =
      .ok ((Walk.ofShape [18446744073709551615, 2]).after k).advance) ∧
    (∀ k, Walk.result [2, 0, 3] k = none) ∧
    (∃ t, generate [3, 2] (Run.logged callNumber) (0, []) =
        .ok t (6, [[0, 0], [0, 1], [1, 0], [1, 1], [2, 0], [2, 1]]) ∧ t.get [2, 0] = .ok 4) ∧
    (∃ cells u, storedByColumns.toVec = .ok cells ∧ ofCells [3, 2] cells = .ok u ∧
      equal u storedByColumns = .ok true) ∧
    generate [4611686018427387904] callNumber = trap (.capacity 4611686018427387904) ∧
    ∃ entries,
      (Tensor.constant [4611686018427387904] 7).toVec = trap (.capacity entries) := by
  obtain ⟨-, -, -, hword, -⟩ := @rowMajor_walk Nat _ [18446744073709551615, 2]
  obtain ⟨-, -, hzero, -, -⟩ := @rowMajor_walk Nat _ [2, 0, 3]
  obtain ⟨-, -, -, -, hstorable⟩ := @rowMajor_walk Nat _ [3, 2]
  obtain ⟨-, -, hgenerate, hcells⟩ := hstorable ⟨_, rfl, rfl⟩
  obtain ⟨-, -, -, -, hline⟩ := @rowMajor_walk Nat _ [4611686018427387904]
  obtain ⟨-, -, hlarge, hcopied⟩ := hline ⟨_, rfl, rfl⟩
  refine ⟨hword (by decide), hzero (by decide), ?_, ?_, (hlarge Nat callNumber 0).1 (by decide),
    (hcopied _ rfl (constant_contained _ _)).2 (by decide)⟩
  · obtain ⟨calls, hcalls, -, hrun⟩ := (hgenerate Nat callNumber 0).2 (by decide)
    have hlist : calls = [[0, 0], [0, 1], [1, 0], [1, 1], [2, 0], [2, 1]] :=
      List.ext_getElem? fun k => by rw [hcalls, Walk.result_eq]; rfl
    subst hlist
    obtain ⟨t, -, -, hget, hlogged⟩ := hrun [0, 1, 2, 3, 4, 5] 6 rfl
    refine ⟨t, hlogged [], ?_⟩
    exact (List.forall₂_iff_get.mp hget).2 4 (by decide) (by decide)
  · obtain ⟨cells, u, hread, hu, hequal⟩ :=
      (hcells storedByColumns rfl ⟨rfl, by decide, by decide⟩).1 (by decide)
    exact ⟨cells, u, hread, hu, hequal⟩

/-- A line of 2^62 cells. -/
def wideLine : Shape :=
  [4611686018427387904]

/-- The cells and strides of the line are words, its walk is not empty, and yet generating it
makes no call. -/
theorem generate_wideLine :
    wideLine.Storable ∧ Walk.result wideLine 0 = some [0] ∧
      ∀ f : Index → Run Unit Nat,
        generate wideLine (Run.logged f) ((), []) =
          .error (.trapped (.capacity 4611686018427387904)) ((), []) := by
  refine ⟨⟨_, rfl, rfl⟩, rfl, fun f => ?_⟩
  rw [generate_overflows ⟨_, rfl, rfl⟩ (by decide)]
  rfl

end TensorLogic
