import TensorLogic.Proofs.Demands

/-!
# What a fold hands out

The fold looks a block up by a base and a list of offsets, all computed from strides
ahead of time. Over storage in bounds nothing of that can be seen: the fold makes one
call for each index of the outer axes, in row-major order, and the call gets the cells
that `get` reads at that index followed by each index of the inner axes
(`Tensor.InBounds.fold_calls`). The run of these calls, `blocks.mapM f`, is the whole
effect of the fold: it fails when and as a call does, and what the calls return are its
cells.

`Run.logged` puts the argument of each call down in a list, which turns the number and
the order of the calls into data.
-/

namespace TensorLogic

variable {α β ι σ : Type}

namespace Run

/-- Reading the argument ahead of each call leaves the run of the calls as it is. -/
theorem mapM_read {read : ι → Except Fault α} {l : List ι} {as : List α}
    (h : List.Forall₂ (fun i a => read i = .ok a) l as) (f : α → Run σ β) :
    (l.mapM fun i => do
      let a : α ← read i
      f a) = as.mapM f := by
  induction h with
  | nil => rfl
  | cons hread _ ih =>
      rw [List.mapM_cons, List.mapM_cons, ih, hread]
      rfl

/-- The same computation, with the argument of each call put down at the end of a list. -/
def logged (f : α → Run σ β) (a : α) : Run (σ × List α) β := fun (s, log) =>
  match f a s with
  | .ok b s' => .ok b (s', log ++ [a])
  | .error fault s' => .error fault (s', log ++ [a])

/-- Calls on a list are made in the order of the list, each once. -/
theorem mapM_logged {f : α → Run σ β} {as : List α} {bs : List β} {s s' : σ}
    (h : as.mapM f s = .ok bs s') (log : List α) :
    as.mapM (logged f) (s, log) = .ok bs (s', log ++ as) := by
  induction as generalizing bs s log with
  | nil =>
      cases h
      rw [List.append_nil]
      rfl
  | cons a as ih =>
      rw [List.mapM_cons] at h ⊢
      obtain ⟨b, s₁, hcall, h⟩ := bind_eq_ok.mp h
      obtain ⟨rest, s₂, hrest, h⟩ := bind_eq_ok.mp h
      cases h
      have hlogged : logged f a (s, log) = .ok b (s₁, log ++ [a]) := by
        simp only [logged, hcall]
      refine bind_eq_ok.mpr ⟨b, _, hlogged, bind_eq_ok.mpr ⟨rest, _, ih hrest _, ?_⟩⟩
      rw [List.append_assoc]
      rfl

theorem bind_error {x : Run σ α} {k : α → Run σ β} {fault : Fault} {s s' : σ}
    (h : x s = .error fault s') : (x >>= k) s = .error fault s' := by
  simp only [bind, EStateM.bind, h]

end Run

namespace Tensor

theorem fill_eq_bind (shape : Shape) (f : Index → Run σ β) :
    fill shape f = (do
      let cells : List β ← shape.indices.mapM f
      dense shape cells.toArray) := by
  rw [fill, Shape.collect_eq, bind_map_left]

/-- With memory for the cells, generating is the run of the calls on the indices. -/
theorem generate_eq_bind [Cell β] {shape : Shape} (h : shape.Fillable β) (f : Index → Run σ β) :
    generate shape f = (do
      let cells : List β ← shape.indices.mapM f
      dense shape cells.toArray) := by
  rw [generate_eq, h.product?_eq]
  simp only [h.reserved]
  exact fill_eq_bind shape f

/-- The cells in row-major order, one for each index. -/
theorem dense_cells {shape : Shape} (h : shape.Storable) {cells : List β}
    (hlen : shape.indices.length = cells.length) :
    ∃ r, dense shape cells.toArray = .ok r ∧ r.shape = shape ∧ r.InBounds ∧
      List.Forall₂ (fun index cell => r.get index = .ok cell) shape.indices cells := by
  obtain ⟨r, hdense⟩ := dense_of_storable h cells.toArray
  obtain ⟨hshape, hbounds, hget⟩ :=
    dense_spec hdense (by simpa [Shape.length_indices] using hlen.symm)
  refine ⟨r, hdense, hshape, hbounds, List.forall₂_iff_get.mpr ⟨hlen, fun k hk hk' => ?_⟩⟩
  exact hget k (by simpa using hk') _ (List.getElem?_eq_getElem hk)

/-- Cells given as a list are read back at the indices, one after the other. -/
theorem ofCells_cells {shape : Shape} {cells : List β} {r : Tensor β}
    (h : ofCells shape cells.toArray = .ok r)
    (hlen : shape.indices.length = cells.length) :
    List.Forall₂ (fun index cell => r.get index = .ok cell) shape.indices cells := by
  have hstorable := (ofCells_filled h).storable
  have hsize : cells.toArray.size = shape.cells := by
    rw [← Shape.length_indices, hlen, List.size_toArray]
  rw [ofCells_eq hstorable, if_pos hsize] at h
  obtain ⟨r', hdense, -, -, hget⟩ := dense_cells hstorable hlen
  obtain rfl : r' = r := Except.ok.inj (hdense.symm.trans h)
  exact hget

variable {t : Tensor α}

theorem InBounds.exists_blocks (ht : t.InBounds) (axes : Nat) :
    ∃ blocks, List.Forall₂ (fun index block => t.blockCells axes index = .ok block)
      (t.outerShape axes).indices blocks := by
  obtain ⟨blocks, hblocks⟩ : ∃ blocks,
      (t.outerShape axes).indices.mapM (t.blockCells axes) = .ok blocks :=
    mapM_ok_of_forall fun index hindex => ht.blockCells_ok hindex
  exact ⟨blocks, mapM_eq_ok.mp hblocks⟩

/-- The fold is the run of the calls on the blocks. -/
theorem InBounds.fold_eq_bind [Cell α] [Cell β] (ht : t.InBounds) {axes : Nat}
    (haxes : axes ≤ t.rank) (hblock : (t.innerShape axes).Blockable α)
    (h : (t.outerShape axes).Fillable β) {blocks : List (List α)}
    (hblocks : List.Forall₂ (fun index block => t.blockCells axes index = .ok block)
      (t.outerShape axes).indices blocks) (f : List α → Run σ β) :
    t.fold axes f = (do
      let results : List β ← blocks.mapM f
      dense (t.outerShape axes) results.toArray) := by
  obtain ⟨_, hplain, -⟩ := h.storable
  rw [fold_eq ht, if_pos haxes, Shape.block_eq_ok_iff.mpr hblock, hplain,
    ← Run.mapM_read hblocks f, ← fill_eq_bind]
  show (liftM (Size.reserve _ _) >>= fun _ => _ : Run σ (Tensor β)) = _
  rw [h.reserved]
  rfl

/-- A fold calls `f` once for each index of the outer axes, in row-major order, on the
cells of the block at that index in row-major order, and lays out what the calls return.
A fold over more axes than there are makes no call. -/
theorem InBounds.fold_calls [Cell α] [Cell β] (ht : t.InBounds) (axes : Nat)
    (f : List α → Run σ β) :
    (t.rank < axes →
      ∀ s, t.fold axes f s = .error (.refused (.foldBeyondRank axes t.shape)) s) ∧
    (axes ≤ t.rank → (t.innerShape axes).Blockable α → (t.outerShape axes).Fillable β →
      ∃ blocks,
        List.Forall₂ (fun index block =>
          List.Forall₂ (fun behind cell => t.get (index ++ behind) = .ok cell)
            (t.innerShape axes).indices block) (t.outerShape axes).indices blocks ∧
        (axes = 0 → ∀ block ∈ blocks, ∃ cell, block = [cell]) ∧
        (0 ∈ t.innerShape axes → ∀ block ∈ blocks, block = []) ∧
        ∀ s,
          (∀ fault s', blocks.mapM f s = .error fault s' →
            t.fold axes f s = .error fault s') ∧
          ∀ results s', blocks.mapM f s = .ok results s' →
            ∃ r, t.fold axes f s = .ok r s' ∧ r.shape = t.shape.take (t.rank - axes) ∧
              r.InBounds ∧
              List.Forall₂ (fun index result => r.get index = .ok result)
                (t.outerShape axes).indices results ∧
              ∀ log, t.fold axes (Run.logged f) (s, log) = .ok r (s', log ++ blocks)) := by
  refine ⟨fun hrank s => ?_, fun haxes hblock hfill => ?_⟩
  · rw [fold_eq ht, if_neg (by omega)]
    rfl
  obtain ⟨blocks, hblocks⟩ := ht.exists_blocks axes
  have hcells := hblocks.imp fun index block hblock => mapM_eq_ok.mp hblock
  have hcalls := ht.fold_eq_bind haxes hblock hfill hblocks f
  have hread : ∀ block ∈ blocks, ∃ index, List.Forall₂
      (fun behind cell => t.get (index ++ behind) = .ok cell)
      (t.innerShape axes).indices block := fun block hblock => by
    obtain ⟨index, -, hcell⟩ := (exists_of_forall₂ hcells).2 block hblock
    exact ⟨index, hcell⟩
  refine ⟨blocks, hcells, ?_, ?_, fun s => ⟨fun fault s' hrun => ?_, fun results s' hrun => ?_⟩⟩
  · rintro rfl block hblock
    obtain ⟨index, hcell⟩ := hread block hblock
    have hinner : t.innerShape 0 = [] := List.drop_length
    rw [hinner] at hcell
    rcases hcell with - | ⟨-, hnil⟩
    cases hnil
    exact ⟨_, rfl⟩
  · intro hzero block hblock
    obtain ⟨index, hcell⟩ := hread block hblock
    rw [Shape.indices_eq_nil_iff.mpr hzero] at hcell
    cases hcell
    rfl
  · rw [hcalls]
    exact Run.bind_error hrun
  · have hlen : (t.outerShape axes).indices.length = results.length :=
      hblocks.length_eq.trans (Run.mapM_ok hrun).length_eq
    obtain ⟨r, hdense, hshape, hbounds, hget⟩ := dense_cells hfill.storable hlen
    refine ⟨r, ?_, hshape, hbounds, hget, fun log => ?_⟩
    · rw [hcalls]
      exact Run.bind_eq_ok.mpr ⟨results, s', hrun, Run.lift_eq_ok.mpr ⟨hdense, rfl⟩⟩
    · rw [ht.fold_eq_bind haxes hblock hfill hblocks]
      exact Run.bind_eq_ok.mpr ⟨results, _, Run.mapM_logged hrun log,
        Run.lift_eq_ok.mpr ⟨hdense, rfl⟩⟩

/-- Two rows of three, as a slice of a buffer that holds the columns one after the other. -/
def slicedColumns : Tensor Nat :=
  { shape := [2, 3], strides := [2, 4], offset := 1, buffer := Array.range 12 }

/-- The sum of a block; the state is the number of calls. -/
def countedSum (block : List Nat) : Run Nat Nat := fun calls =>
  .ok (block.foldl (· + ·) 0) (calls + 1)

theorem fold_calls_slicedColumns :
    slicedColumns.InBounds ∧ 1 ≤ slicedColumns.rank ∧ slicedColumns.rank < 3 ∧
      (slicedColumns.innerShape 1).Blockable Nat ∧ (slicedColumns.outerShape 1).Fillable Nat ∧
      slicedColumns.fold 3 countedSum 0 =
        .error (.refused (.foldBeyondRank 3 slicedColumns.shape)) 0 ∧
      ∃ r, slicedColumns.fold 1 countedSum 0 = .ok r 2 ∧ r.get [0] = .ok 15 ∧
        r.get [1] = .ok 21 ∧
        slicedColumns.fold 1 (Run.logged countedSum) (0, []) =
          .ok r (2, [[1, 5, 9], [3, 7, 11]]) := by
  have hbounds : slicedColumns.InBounds := ⟨rfl, by decide, by decide⟩
  refine ⟨hbounds, by decide, by decide, by decide, by decide,
    (hbounds.fold_calls 3 countedSum).1 (by decide) 0, ?_⟩
  obtain ⟨blocks, hcells, -, -, hrun⟩ :=
    (hbounds.fold_calls 1 countedSum).2 (by decide) (by decide) (by decide)
  have hblocks : blocks = [[1, 5, 9], [3, 7, 11]] :=
    Except.ok.inj <| (mapM_eq_ok.mpr (hcells.imp fun _ _ => mapM_eq_ok.mpr)).symm.trans rfl
  subst hblocks
  obtain ⟨r, hfold, -, -, hget, hlogged⟩ := (hrun 0).2 [15, 21] 2 rfl
  rcases hget with - | ⟨hfirst, hget⟩
  rcases hget with - | ⟨hsecond, -⟩
  exact ⟨r, hfold, hfirst, hsecond, hlogged []⟩

end Tensor

end TensorLogic
