import TensorLogic.Proofs.Storage
import TensorLogic.Tensor.Fill

/-!
# Operations that fill a buffer

`map`, `map2`, `generate`, `stack` and `fold` differ in what they read for a cell
and agree in what they do with the results: they run one computation per index
in row-major order and lay the results out densely. `fill` is that common part,
and `fill_spec` is all that has to be known about it.

The fold is the one operation that looks at strides itself instead of going
through `get`. `fold_eq` undoes that: over storage in bounds it is a `fill` over
the outer axes that reads each block index by index.

A buffer that grows asks for room between the calls, each time for as many cells as
there are by then. How many those are is told by the index alone, so the request can
be counted to the computation of the cell (`grown`), and `map` and `map2` are fills
as well.
-/

namespace TensorLogic

variable {α β γ σ : Type}

/-- The computation can return `a`, from some state. -/
def Returns (x : Run σ α) (a : α) : Prop :=
  ∃ s s', x s = .ok a s'

namespace Run

/-- Whether the computation returns from a state, for runs on given inputs. -/
def returns (x : Run σ α) (s : σ) : Bool :=
  match x s with
  | .ok _ _ => true
  | .error _ _ => false

theorem exists_of_returns {x : Run σ α} {s : σ} (h : x.returns s) : ∃ a s', x s = .ok a s' := by
  rw [returns] at h
  split at h
  next a s' hx => exact ⟨a, s', hx⟩
  next => cases h

theorem bind_eq_ok {x : Run σ α} {k : α → Run σ β} {b : β} {s s' : σ} :
    (x >>= k) s = .ok b s' ↔ ∃ a s₁, x s = .ok a s₁ ∧ k a s₁ = .ok b s' := by
  simp only [bind, EStateM.bind]
  cases x s with
  | ok a s₁ => simp
  | error fault s₁ => simp

theorem lift_eq_ok {x : Except Fault α} {a : α} {s s' : σ} :
    (liftM x : Run σ α) s = .ok a s' ↔ x = .ok a ∧ s' = s := by
  cases x with
  | ok b =>
      show EStateM.Result.ok b s = .ok a s' ↔ _
      simp [eq_comm]
  | error fault =>
      show EStateM.Result.error fault s = .ok a s' ↔ _
      simp

theorem lift_bind_eq_ok {x : Except Fault α} {k : α → Run σ β} {b : β} {s s' : σ} :
    (liftM x >>= k) s = .ok b s' ↔ ∃ a, x = .ok a ∧ k a s = .ok b s' := by
  rw [bind_eq_ok]
  constructor
  · rintro ⟨a, s₁, hlift, hk⟩
    obtain ⟨hx, rfl⟩ := lift_eq_ok.mp hlift
    exact ⟨a, hx, hk⟩
  · rintro ⟨a, hx, hk⟩
    exact ⟨a, s, lift_eq_ok.mpr ⟨hx, rfl⟩, hk⟩

theorem value_eq_ok {x : Run Unit α} {a : α} :
    x.value = .ok a ↔ x () = .ok a () := by
  unfold Run.value
  cases x () with
  | ok b s => simp
  | error fault s => simp

theorem value_bind (x : Run Unit α) (k : α → Run Unit β) :
    (x >>= k).value = x.value >>= fun a => (k a).value := by
  simp only [Run.value, Bind.bind, EStateM.bind, Except.bind]
  cases x () <;> rfl

theorem value_lift (x : Except Fault α) : (liftM x : Run Unit α).value = x := by
  cases x <;> rfl

theorem lift_ok_bind (a : α) (k : α → Run σ β) :
    (liftM (.ok a : Except Fault α) >>= k : Run σ β) = k a :=
  rfl

/-- Requests one after the other are one request. -/
theorem lift_bind_assoc (x : Except Fault α) (k : α → Except Fault β) (l : β → Run σ γ) :
    (liftM (x >>= k) >>= l : Run σ γ) = liftM x >>= fun a => liftM (k a) >>= l := by
  cases x <;> rfl

theorem returns_lift {x : Except Fault α} {a : α} :
    Returns (liftM x : Run σ α) a → x = .ok a := by
  rintro ⟨s, s', h⟩
  exact (lift_eq_ok.mp h).1

theorem mapM_ok {f : α → Run σ β} {l : List α} {bs : List β} {s s' : σ}
    (h : l.mapM f s = .ok bs s') : List.Forall₂ (fun a b => Returns (f a) b) l bs := by
  induction l generalizing bs s with
  | nil =>
      cases h
      exact .nil
  | cons a l ih =>
      rw [List.mapM_cons] at h
      obtain ⟨b, s₁, hb, h⟩ := bind_eq_ok.mp h
      obtain ⟨rest, s₂, hrest, h⟩ := bind_eq_ok.mp h
      cases h
      exact .cons ⟨s, s₁, hb⟩ (ih hrest)

/-- Where steps do more than others before they return what the others return, the others
return it too. -/
theorem mapM_of_mapM {f g : α → Run σ β} {l : List α} {bs : List β} {s s' : σ}
    (hfg : ∀ a b s s', g a s = .ok b s' → f a s = .ok b s') (h : l.mapM g s = .ok bs s') :
    l.mapM f s = .ok bs s' := by
  induction l generalizing bs s s' with
  | nil => exact h
  | cons a l ih =>
      rw [List.mapM_cons] at h ⊢
      obtain ⟨b, s₁, hb, h⟩ := bind_eq_ok.mp h
      obtain ⟨rest, s₂, hrest, h⟩ := bind_eq_ok.mp h
      exact bind_eq_ok.mpr ⟨b, s₁, hfg a b s s₁ hb, bind_eq_ok.mpr ⟨rest, s₂, ih hrest, h⟩⟩

/-- A monadic map whose steps leave the state as it is. -/
theorem mapM_eq_ok {f : α → Run σ β} {l : List α} {bs : List β} {s : σ}
    (h : List.Forall₂ (fun a b => f a s = .ok b s) l bs) : l.mapM f s = .ok bs s := by
  induction h with
  | nil => rfl
  | @cons a b l bs hab _ ih =>
      rw [List.mapM_cons]
      exact bind_eq_ok.mpr ⟨b, s, hab, bind_eq_ok.mpr ⟨bs, s, ih, rfl⟩⟩

/-- Where every step returns, so does the map. -/
theorem mapM_total {f : α → Run σ β} (h : ∀ a s, ∃ b s', f a s = .ok b s') (l : List α) (s : σ) :
    ∃ bs s', l.mapM f s = .ok bs s' := by
  induction l generalizing s with
  | nil => exact ⟨[], s, rfl⟩
  | cons a l ih =>
      obtain ⟨b, s₁, hcall⟩ := h a s
      obtain ⟨bs, s₂, hrest⟩ := ih s₁
      refine ⟨b :: bs, s₂, ?_⟩
      rw [List.mapM_cons]
      exact bind_eq_ok.mpr ⟨b, s₁, hcall, bind_eq_ok.mpr ⟨bs, s₂, hrest, rfl⟩⟩

end Run

namespace Tensor

/-- One computation per index in row-major order, laid out densely. -/
def fill (shape : Shape) (f : Index → Run σ α) : Run σ (Tensor α) := do
  let buffer ← shape.collect f
  dense shape buffer

theorem fill_congr {shape : Shape} {f g : Index → Run σ α}
    (h : ∀ index ∈ shape.indices, f index = g index) : fill shape f = fill shape g := by
  simp only [fill, Shape.collect_eq, Shape.mapM_congr h]

/-- Every cell of a filled tensor is what its computation returned. -/
theorem fill_spec {shape : Shape} {f : Index → Run σ α} {r : Tensor α} {s s' : σ}
    (h : fill shape f s = .ok r s') :
    r.shape = shape ∧ r.InBounds ∧
      ∀ index ∈ shape.indices, ∃ a, r.get index = .ok a ∧ Returns (f index) a := by
  rw [fill, Shape.collect_eq] at h
  obtain ⟨buffer, s₁, hbuffer, h⟩ := Run.bind_eq_ok.mp h
  obtain ⟨hdense, -⟩ := Run.lift_eq_ok.mp h
  rw [map_eq_pure_bind] at hbuffer
  obtain ⟨cells, s₂, hcells, hpure⟩ := Run.bind_eq_ok.mp hbuffer
  cases hpure
  have hall := Run.mapM_ok hcells
  have hlen := hall.length_eq
  obtain ⟨hshape, hbounds, hget⟩ :=
    dense_spec hdense (by simpa [Shape.length_indices] using hlen.symm)
  refine ⟨hshape, hbounds, fun index hindex => ?_⟩
  obtain ⟨k, hk, hindex⟩ := List.getElem_of_mem hindex
  have hk' : k < cells.length := hlen ▸ hk
  refine ⟨cells[k], ?_, ?_⟩
  · have := hget k (by simpa using hk') index (by rw [← hindex]; exact List.getElem?_eq_getElem hk)
    simpa using this
  · have := (List.forall₂_iff_get.mp hall).2 k hk hk'
    simpa [hindex] using this

end Tensor

/-! ## Buffers that grow -/

namespace Size

/-- Asks for room entry by entry, up to as many as are given. -/
def growing (entries width : Nat) : Except Fault Unit :=
  forM (List.range entries) fun before => grow (before + 1) width

/-- Asks for what a fold holds of a block: the offsets of its cells, and the cells. -/
def block (cells width : Nat) : Except Fault Unit := do
  growing cells (Cell.width Nat)
  reserve cells width

end Size

namespace Tensor

section

variable [Cell α] {shape : Shape} {f : Index → Run σ α}

/-- The computation for an index, with the request for room that follows it: by then there
is a cell for each index up to this one. -/
def grown (shape : Shape) (f : Index → Run σ α) (index : Index) : Run σ α := do
  let cell ← f index
  Size.grow (shape.indices.idxOf index + 1) (Cell.width α)
  pure cell

/-- What is left of a growing buffer from the `acc.size`-th index on. -/
theorem foldlM_grow (front behind : List Index) (hnodup : (front ++ behind).Nodup)
    (acc : Array α) (hacc : acc.size = front.length) :
    behind.foldlM (fun (acc : Array α) index => (do
      let cell ← f index
      Size.grow (acc.size + 1) (Cell.width α)
      pure (acc.push cell) : Run σ (Array α))) acc =
    behind.foldlM (fun (acc : Array α) index => do
      let cell ← (do
        let cell ← f index
        Size.grow ((front ++ behind).idxOf index + 1) (Cell.width α)
        pure cell : Run σ α)
      pure (acc.push cell)) acc := by
  induction behind generalizing front acc with
  | nil => rfl
  | cons index behind ih =>
      have hnot : index ∉ front := by
        rw [List.nodup_append] at hnodup
        exact fun hmem => hnodup.2.2 index hmem index List.mem_cons_self rfl
      have hplace : (front ++ index :: behind).idxOf index = acc.size := by
        rw [List.idxOf_append_of_notMem hnot, List.idxOf_cons_self, hacc, Nat.add_zero]
      have happend : front ++ index :: behind = (front ++ [index]) ++ behind := by simp
      simp only [List.foldlM_cons, bind_assoc, pure_bind, hplace]
      refine congrArg (f index >>= ·) (funext fun cell => congrArg (_ >>= ·) (funext fun _ => ?_))
      have hrest := ih (front ++ [index]) (happend ▸ hnodup) (acc.push cell) (by simp [hacc])
      rw [happend]
      simpa only [bind_assoc, pure_bind] using hrest

theorem gather_eq (shape : Shape) (f : Index → Run σ α) :
    shape.gather f = shape.collect (grown shape f) := by
  rw [Shape.gather, Shape.collect, Shape.foldIndices_eq, Shape.foldIndices_eq]
  exact foldlM_grow [] shape.indices (Shape.nodup_indices shape) #[] rfl

/-- Where the cells are there to be read, growing is all that is left. -/
theorem gather_read {f : Index → Except Fault α} {cells : List α}
    (h : List.Forall₂ (fun index cell => f index = .ok cell) shape.indices cells) :
    shape.gather (fun index => (f index : Run σ α)) = (do
      Size.growing shape.cells (Cell.width α)
      pure cells.toArray) := by
  have hrest : ∀ {behind : List Index} {cells : List α},
      List.Forall₂ (fun index cell => f index = .ok cell) behind cells → ∀ acc : Array α,
      behind.foldlM (fun (acc : Array α) index => (do
        let cell : α ← f index
        Size.grow (acc.size + 1) (Cell.width α)
        pure (acc.push cell) : Run σ (Array α))) acc = (do
      let _ ← (forM (List.range' acc.size behind.length) fun before =>
        Size.grow (before + 1) (Cell.width α) : Except Fault Unit)
      pure (acc ++ cells.toArray)) := by
    intro behind cells h
    induction h with
    | nil =>
        intro acc
        rw [Array.append_empty]
        rfl
    | @cons index cell behind cells hcell _ ih =>
        intro acc
        rw [List.foldlM_cons, hcell, Run.lift_ok_bind, bind_assoc, List.length_cons,
          List.range'_succ, List.forM_cons, Run.lift_bind_assoc]
        refine congrArg (_ >>= ·) (funext fun _ => ?_)
        rw [pure_bind, ih, Array.size_push]
        simp
  rw [Shape.gather, Shape.foldIndices_eq, hrest h, Size.growing, List.range_eq_range',
    Shape.length_indices, Array.empty_append]
  rfl

theorem returns_of_grown {index : Index} {a : α} (h : Returns (grown shape f index) a) :
    Returns (f index) a := by
  obtain ⟨s, s', h⟩ := h
  obtain ⟨b, s₁, hf, hrest⟩ := Run.bind_eq_ok.mp h
  obtain ⟨_, -, hpure⟩ := Run.lift_bind_eq_ok.mp hrest
  cases hpure
  exact ⟨s, _, hf⟩

/-- What a growing buffer holds in the end, one that does not grow would hold too. -/
theorem fill_of_grown {r : Tensor α} {s s' : σ} (h : fill shape (grown shape f) s = .ok r s') :
    fill shape f s = .ok r s' := by
  rw [fill, Shape.collect_eq, bind_map_left] at h ⊢
  obtain ⟨cells, s₁, hcells, h⟩ := Run.bind_eq_ok.mp h
  refine Run.bind_eq_ok.mpr ⟨cells, s₁, Run.mapM_of_mapM ?_ hcells, h⟩
  intro index cell s s' hcell
  obtain ⟨cell', s₁, hf, hrest⟩ := Run.bind_eq_ok.mp hcell
  obtain ⟨_, -, hpure⟩ := Run.lift_bind_eq_ok.mp hrest
  cases hpure
  exact hf

end

theorem map_eq [Cell β] (t : Tensor α) (f : α → Run σ β) :
    t.map f = fill t.shape (grown t.shape fun index => do
      let cell : α ← t.get index
      f cell) := by
  rw [map, gather_eq]
  rfl

theorem map2_eq [Cell γ] (a : Tensor α) (b : Tensor β) (f : α → β → Run σ γ) :
    map2 a b f =
      if a.shape = b.shape then
        fill a.shape (grown a.shape fun index => do
          let x : α ← a.get index
          let y : β ← b.get index
          f x y)
      else refuse (.shapeMismatch .map2 a.shape b.shape) := by
  unfold map2
  rw [gather_eq]
  by_cases h : a.shape = b.shape
  · rw [if_neg (not_not_intro h), if_pos h]
    rfl
  · rw [if_pos h, if_neg h]
    rfl

theorem generate_eq [Cell α] (shape : Shape) (cell : Index → Run σ α) :
    generate shape cell =
      (match Size.product? 1 shape with
      | none => trap (.oversized shape)
      | some size => do
          Size.reserve size (Cell.width α)
          fill shape cell) :=
  rfl

/-- The shape of a block of the fold over the trailing `axes` axes. -/
def innerShape (t : Tensor α) (axes : Nat) : Shape :=
  t.shape.drop (t.rank - axes)

/-- The shape that the fold over the trailing `axes` axes leaves. -/
def outerShape (t : Tensor α) (axes : Nat) : Shape :=
  t.shape.take (t.rank - axes)

/-- The cells of the block at an index of the outer axes, in row-major order. -/
def blockCells (t : Tensor α) (axes : Nat) (index : Index) : Except Fault (List α) :=
  (t.innerShape axes).indices.mapM fun j => t.get (index ++ j)

/-- An index of the fold and an index inside its block are an index of the tensor. -/
theorem append_mem_indices {t : Tensor α} {axes : Nat} {index j : Index}
    (hindex : index ∈ (t.outerShape axes).indices) (hj : j ∈ (t.innerShape axes).indices) :
    index ++ j ∈ t.shape.indices := by
  rw [← List.take_append_drop (t.rank - axes) t.shape]
  exact Shape.append_mem_indices hindex hj

theorem length_outer {t : Tensor α} {axes : Nat} {index : Index}
    (hindex : index ∈ (t.outerShape axes).indices) : index.length = t.rank - axes := by
  rw [Shape.length_of_mem_indices hindex, outerShape, List.length_take, rank]
  omega

theorem blockOffsets_eq {shape : Shape} {strides : List Nat}
    (h : reach shape strides < Word.bound) :
    blockOffsets shape strides = (do
      Size.growing shape.cells (Cell.width Nat)
      .ok (shape.indices.map (dot · strides))) := by
  have hcheck : List.Forall₂ (fun index offset => Word.check (dot index strides) = .ok offset)
      shape.indices (shape.indices.map (dot · strides)) := by
    rw [List.forall₂_map_right_iff, List.forall₂_same]
    exact fun index hindex => if_pos (Nat.lt_of_le_of_lt (dot_le_reach hindex strides) h)
  rw [blockOffsets, gather_read hcheck, Run.value_bind, Run.value_lift]
  cases Size.growing shape.cells (Cell.width Nat) <;> rfl

/-- The cells of a block, read through the strides, are the cells at the indices
of the block. -/
theorem InBounds.block_eq {t : Tensor α} (ht : t.InBounds) {axes : Nat} {index : Index}
    (hindex : index ∈ (t.outerShape axes).indices) :
    t.block ((t.innerShape axes).indices.map (dot · (t.strides.drop (t.rank - axes))))
        (t.offset + dot index (t.strides.take (t.rank - axes))) =
      t.blockCells axes index := by
  rw [block, blockCells, List.mapM_map]
  refine Shape.mapM_congr fun j hj => ?_
  have hmem := append_mem_indices hindex hj
  have hle := dot_le_reach hmem t.strides
  have hword := ht.reach_lt
  rw [ht.get_eq hmem]
  rw [dot_append_eq, length_outer hindex] at hle ⊢
  rw [Function.comp_apply, Word.check,
    if_pos (by omega), Nat.add_assoc]
  rfl

/-- The fold over in-bounds storage reads each block index by index. -/
theorem fold_eq [Cell α] [Cell β] {t : Tensor α} (ht : t.InBounds) (axes : Nat)
    (f : List α → Run σ β) :
    t.fold axes f =
      (if axes ≤ t.rank then do
        Size.block (t.innerShape axes).cells (Cell.width α)
        let size : Nat ← Size.plain (t.outerShape axes)
        Size.reserve size (Cell.width β)
        fill (t.outerShape axes) fun index => do
          let cells : List α ← t.blockCells axes index
          f cells
      else refuse (.foldBeyondRank axes t.shape)) := by
  have hreach := ht.reach_lt
  have hsplit : reach t.shape t.strides =
      reach (t.outerShape axes) (t.strides.take (t.rank - axes)) +
        reach (t.innerShape axes) (t.strides.drop (t.rank - axes)) := by
    rw [reach, reach, reach, ← dot_append, List.take_append_drop, ← List.map_append,
      outerShape, innerShape, List.take_append_drop]
    simp [outerShape, ht.strides_length]
  unfold fold
  by_cases haxes : axes ≤ t.rank
  · rw [if_neg (by omega), if_pos haxes]
    have hblock : reach (t.innerShape axes) (t.strides.drop (t.rank - axes)) < Word.bound := by
      omega
    have hoffsets : blockOffsets (t.shape.drop (t.rank - axes))
        (t.strides.drop (t.rank - axes)) = _ := blockOffsets_eq hblock
    dsimp only
    rw [hoffsets]
    have hfill : ∀ index ∈ (t.outerShape axes).indices, (do
        let base : Nat ← Word.check
          (t.offset + dot index (t.strides.take (t.rank - axes)))
        let cells : List α ← t.block
          ((t.innerShape axes).indices.map (dot · (t.strides.drop (t.rank - axes)))) base
        f cells : Run σ β) = (do
        let cells : List α ← t.blockCells axes index
        f cells) := by
      intro index hindex
      have hle := dot_le_reach hindex (t.strides.take (t.rank - axes))
      rw [Word.check, if_pos (by omega), ← ht.block_eq hindex]
      rfl
    have hlength : ((t.innerShape axes).indices.map
        (dot · (t.strides.drop (t.rank - axes)))).length = (t.innerShape axes).cells := by
      rw [List.length_map, Shape.length_indices]
    rw [← fill_congr hfill, Run.lift_bind_assoc, Size.block, Run.lift_bind_assoc]
    refine congrArg (_ >>= ·) (funext fun _ => ?_)
    rw [← hlength]
    rfl
  · rw [if_pos (by omega), if_neg haxes]
    rfl

/-! ## What the operations return -/

theorem generate_ok [Cell α] {shape : Shape} {cell : Index → Run σ α} {r : Tensor α} {s s' : σ}
    (h : generate shape cell s = .ok r s') : fill shape cell s = .ok r s' := by
  rw [generate_eq] at h
  split at h
  · cases h
  · obtain ⟨_, -, hfill⟩ := Run.lift_bind_eq_ok.mp h
    exact hfill

theorem map_ok [Cell β] {t : Tensor α} {f : α → Run σ β} {r : Tensor β} {s s' : σ}
    (h : t.map f s = .ok r s') : fill t.shape (fun index => do
      let cell : α ← t.get index
      f cell) s = .ok r s' :=
  fill_of_grown (map_eq t f ▸ h)

theorem map2_ok [Cell γ] {a : Tensor α} {b : Tensor β} {f : α → β → Run σ γ} {r : Tensor γ}
    {s s' : σ} (h : map2 a b f s = .ok r s') :
    a.shape = b.shape ∧ fill a.shape (fun index => do
      let x : α ← a.get index
      let y : β ← b.get index
      f x y) s = .ok r s' := by
  rw [map2_eq] at h
  split at h
  next hshape => exact ⟨hshape, fill_of_grown h⟩
  next => cases h

theorem fold_ok [Cell α] [Cell β] {t : Tensor α} (ht : t.InBounds) {axes : Nat}
    {f : List α → Run σ β} {r : Tensor β} {s s' : σ} (h : t.fold axes f s = .ok r s') :
    axes ≤ t.rank ∧ fill (t.outerShape axes) (fun index => do
      let cells : List α ← t.blockCells axes index
      f cells) s = .ok r s' := by
  rw [fold_eq ht] at h
  split at h
  next haxes =>
      obtain ⟨_, -, hrest⟩ := Run.lift_bind_eq_ok.mp h
      obtain ⟨size, -, hrest⟩ := Run.lift_bind_eq_ok.mp hrest
      obtain ⟨_, -, hfill⟩ := Run.lift_bind_eq_ok.mp hrest
      exact ⟨haxes, hfill⟩
  next => cases h

/-- The cell of a stack at an index whose last coordinate picks the part. -/
def stackCell (parts : List (Tensor α)) (index : Index) : Except Fault α :=
  match index.getLast?.bind (parts.toArray[·]?) with
  | some part => part.get index.dropLast
  | none => trap .outOfBounds

theorem stackCell_append {parts : List (Tensor α)} {k : Nat} (hk : k < parts.length)
    (index : Index) : stackCell parts (index ++ [k]) = parts[k].get index := by
  simp [stackCell, hk]

theorem stack_cons_eq [Cell α] (first : Tensor α) (rest : List (Tensor α)) :
    stack (first :: rest) =
      (match (first :: rest).find? fun part => part.shape ≠ first.shape with
      | some other => refuse (.shapeMismatch .stack first.shape other.shape)
      | none => do
          let _ ← Size.checked (first.shape ++ [(first :: rest).length])
          Run.value <| generate (first.shape ++ [(first :: rest).length]) fun index =>
            (stackCell (first :: rest) index : Except Fault α)) := by
  have hcell : ∀ index : Index, (do
      match index.getLast?.bind ((first :: rest).toArray[·]?) with
        | some part => part.get index.dropLast
        | none => trap .outOfBounds : Run Unit α) =
      liftM (stackCell (first :: rest) index) := by
    intro index
    unfold stackCell
    split <;> rfl
  unfold stack
  dsimp only
  cases (first :: rest).find? fun part => part.shape ≠ first.shape with
  | some other => rfl
  | none =>
      refine congrArg (Size.checked _ >>= ·) (funext fun _ => ?_)
      exact congrArg (fun cell => Run.value (generate _ cell)) (funext hcell)

/-- Nothing is refused when parts of one shape are stacked. -/
theorem stack_eq [Cell α] {parts : List (Tensor α)} {shape : Shape} (hne : parts ≠ [])
    (hparts : ∀ part ∈ parts, part.shape = shape) :
    stack parts = (do
      let _ ← Size.checked (shape ++ [parts.length])
      Run.value <| generate (shape ++ [parts.length]) fun index =>
        (stackCell parts index : Except Fault α)) := by
  obtain ⟨first, rest, rfl⟩ := List.exists_cons_of_ne_nil hne
  have hfirst := hparts first List.mem_cons_self
  have hnone : (first :: rest).find? (fun part => part.shape ≠ first.shape) = none := by
    refine List.find?_eq_none.mpr fun part hpart => ?_
    simp [hparts part hpart, hfirst]
  rw [stack_cons_eq, hnone, hfirst]

/-- Only parts of one shape are stacked, and their stack is filled cell by cell. -/
theorem stack_ok [Cell α] {parts : List (Tensor α)} {r : Tensor α} (h : stack parts = .ok r) :
    ∃ shape, (∀ part ∈ parts, part.shape = shape) ∧
      fill (shape ++ [parts.length])
        (fun index => (stackCell parts index : Except Fault α)) () = .ok r () := by
  match parts with
  | [] => cases h
  | first :: rest =>
      rw [stack_cons_eq] at h
      split at h
      next => cases h
      next hnone =>
          obtain ⟨n, -, h⟩ := TensorLogic.bind_eq_ok.mp h
          refine ⟨first.shape, fun part hpart => ?_, generate_ok (Run.value_eq_ok.mp h)⟩
          simpa using List.find?_eq_none.mp hnone part hpart

/-- The parts of a stack share one shape, and each is found again behind. -/
theorem stack_spec [Cell α] {parts : List (Tensor α)} {r : Tensor α} (h : stack parts = .ok r) :
    ∃ shape, (∀ part ∈ parts, part.shape = shape) ∧
      r.shape = shape ++ [parts.length] ∧ r.InBounds ∧
      ∀ index ∈ shape.indices, ∀ (k : Nat) (hk : k < parts.length),
        ∃ a, r.get (index ++ [k]) = .ok a ∧ parts[k].get index = .ok a := by
  obtain ⟨shape, hparts, hfill⟩ := stack_ok h
  obtain ⟨hshape, hbounds, hget⟩ := fill_spec hfill
  refine ⟨shape, hparts, hshape, hbounds, fun index hindex k hk => ?_⟩
  obtain ⟨a, ha, hcell⟩ :=
    hget _ (Shape.mem_indices_concat.mpr ⟨index, hindex, k, hk, rfl⟩)
  rw [stackCell_append hk] at hcell
  exact ⟨a, ha, Run.returns_lift hcell⟩

end Tensor

end TensorLogic
