import TensorLogic.Proofs.Overruns

/-!
# What the operations on tensors build

A tensor is built if it comes out of a finite sequence of operations that all
succeeded, whatever functions they were given. Operations that compute cells fill a
fresh buffer, and `unconcat` stays inside the view that it splits. That leaves
`reshape`, which never looks at the buffer. A reshape that names each source axis at
most once stays inside as well. One that names an axis twice adds its stride twice, so
its farthest position can lie beyond the buffer: it fits exactly if that position does
not, or if the view has no index at all.

Every built tensor is contained as long as each reshape on the way fits, and a reshape
of a built tensor that does not fit is not contained (`built_contained`).
-/

namespace TensorLogic

open Tensor

variable {α β γ σ : Type}

namespace Tensor

/-- The farthest position of the view that a reshape would give is in the buffer, or
the view is empty. -/
def Fits (t : Tensor α) (target : Shape) (axes : List Axis) : Prop :=
  0 ∈ target ∨ t.offset + reach target (axes.map t.strideOf) < t.buffer.size

theorem reshape_inside_iff {t r : Tensor α} {target : Shape} {axes : List Axis}
    (h : t.reshape target axes = .ok r) :
    (∀ index ∈ r.shape.indices, r.offset + dot index r.strides < r.buffer.size) ↔
      t.Fits target axes := by
  obtain ⟨rfl, -, -⟩ := reshape_ok h
  exact inside_iff

namespace Contained

variable {t : Tensor α} (ht : t.Contained)

include ht

theorem reshape {r : Tensor α} {target : Shape} {axes : List Axis}
    (h : t.reshape target axes = .ok r) (hfits : t.Fits target axes) : r.Contained := by
  have hinside := (reshape_inside_iff h).mpr hfits
  obtain ⟨rfl, hkeeps, -⟩ := reshape_ok h
  exact ⟨by simpa using hkeeps.length_eq, hinside, ht.size_lt⟩

/-- A reshape that names each source axis at most once fits. -/
theorem fits_of_nodup {r : Tensor α} {target : Shape} {axes : List Axis}
    (h : t.reshape target axes = .ok r) (honce : (Axis.sources axes).Nodup) :
    t.Fits target axes := by
  refine (reshape_inside_iff h).mp ?_
  obtain ⟨rfl, hkeeps, hempty⟩ := reshape_ok h
  intro index hindex
  have hrank := (Shape.length_of_mem_indices hindex).trans hkeeps.length_eq.symm
  simp only [dot_sourceIndex ht.strides_length hkeeps honce hrank]
  exact ht.inside _ (sourceIndex_mem hkeeps hempty hindex)

theorem unconcat {parts : List (Tensor α)} (h : t.unconcat = .ok parts)
    {part : Tensor α} (hpart : part ∈ parts) : part.Contained := by
  unfold Tensor.unconcat at h
  split at h
  next extent stride hextent hstride =>
      obtain ⟨_, -, hparts⟩ := TensorLogic.bind_eq_ok.mp h
      obtain ⟨place, hplace, hview⟩ := (exists_of_forall₂ (mapM_eq_ok.mp hparts)).2 part hpart
      have hk : place < extent := List.mem_range.mp hplace
      obtain ⟨offset, hoffset, hview⟩ := TensorLogic.bind_eq_ok.mp hview
      have hslice : part = t.slice place := by
        rw [Word.check] at hoffset
        split at hoffset
        · cases hoffset
          injection hview with hview
          simp [← hview, slice, List.getLastD_eq_getLast?, hstride]
        · cases hoffset
      obtain ⟨hlen, hslices⟩ := slice_eq ht.strides_length hextent hk
      rw [hslice]
      refine ⟨hlen, fun index hindex => ?_, ht.size_lt⟩
      obtain ⟨hmem, hdot⟩ := hslices index hindex
      rw [hdot]
      exact ht.inside _ hmem
  next => cases h

end Contained

theorem ofCells_contained {shape : Shape} {cells : Array α} {t : Tensor α}
    (h : ofCells shape cells = .ok t) : t.Contained := by
  unfold ofCells at h
  obtain ⟨needed, hneeded, h⟩ := TensorLogic.bind_eq_ok.mp h
  split at h
  · cases h
  next hsize =>
      have := (Size.checked_ok hneeded).1
      exact dense_contained h (by omega)

theorem vector_contained {cells : Array α} {t : Tensor α} (h : vector cells = .ok t) :
    t.Contained :=
  dense_contained h (by simp [Shape.cells])

theorem generate_contained [Cell α] {shape : Shape} {f : Index → Run σ α} {r : Tensor α}
    {s s' : σ} (h : generate shape f s = .ok r s') : r.Contained :=
  fill_contained (generate_ok h)

theorem map_contained [Cell β] {t : Tensor α} {f : α → Run σ β} {r : Tensor β} {s s' : σ}
    (h : t.map f s = .ok r s') : r.Contained :=
  fill_contained (map_ok h)

theorem fold_contained [Cell α] [Cell β] {t : Tensor α} {axes : Nat} {f : List α → Run σ β}
    {r : Tensor β} {s s' : σ} (h : t.fold axes f s = .ok r s') : r.Contained := by
  unfold Tensor.fold at h
  split at h
  · cases h
  · obtain ⟨offsets, -, hblock⟩ := Run.lift_bind_eq_ok.mp h
    obtain ⟨_, -, hsized⟩ := Run.lift_bind_eq_ok.mp hblock
    obtain ⟨size, -, hreserved⟩ := Run.lift_bind_eq_ok.mp hsized
    obtain ⟨_, -, hfill⟩ := Run.lift_bind_eq_ok.mp hreserved
    exact fill_contained hfill

theorem stack_contained [Cell α] {parts : List (Tensor α)} {r : Tensor α}
    (h : stack parts = .ok r) : r.Contained :=
  let ⟨_, _, hfill⟩ := stack_ok h
  fill_contained hfill

end Tensor

/-- Tensors that a finite sequence of successful operations gives, in which every reshape
fits. The functions that cells are computed with are arbitrary. -/
inductive Built : {α : Type} → Tensor α → Prop
  | constant {α : Type} (shape : Shape) (value : α) : Built (.constant shape value)
  | scalar {α : Type} (value : α) : Built (.scalar value)
  | vector {α : Type} {cells : Array α} {r : Tensor α} (h : Tensor.vector cells = .ok r) :
      Built r
  | ofCells {α : Type} {shape : Shape} {cells : Array α} {r : Tensor α}
      (h : Tensor.ofCells shape cells = .ok r) : Built r
  | generate {α σ : Type} [Cell α] {shape : Shape} {f : Index → Run σ α} {r : Tensor α}
      {s s' : σ} (h : Tensor.generate shape f s = .ok r s') : Built r
  | map {α β σ : Type} [Cell β] {t : Tensor α} {f : α → Run σ β} {r : Tensor β} {s s' : σ}
      (ht : Built t) (h : t.map f s = .ok r s') : Built r
  | map2 {α β γ σ : Type} [Cell γ] {a : Tensor α} {b : Tensor β} {f : α → β → Run σ γ}
      {r : Tensor γ} {s s' : σ} (ha : Built a) (hb : Built b)
      (h : Tensor.map2 a b f s = .ok r s') : Built r
  | fold {α β σ : Type} [Cell α] [Cell β] {t : Tensor α} {axes : Nat} {f : List α → Run σ β}
      {r : Tensor β} {s s' : σ} (ht : Built t) (h : t.fold axes f s = .ok r s') : Built r
  | stack {α : Type} [Cell α] {parts : List (Tensor α)} {r : Tensor α}
      (hparts : ∀ part ∈ parts, Built part) (h : Tensor.stack parts = .ok r) : Built r
  | unconcat {α : Type} {t : Tensor α} {parts : List (Tensor α)} {part : Tensor α}
      (ht : Built t) (h : t.unconcat = .ok parts) (hpart : part ∈ parts) : Built part
  | join {α β σ : Type} [Cell β] {output : String} {operands : List (Labelled α)}
      {combine : List α → Run σ β} {joined : Joined β} {s s' : σ}
      (hoperands : ∀ operand ∈ operands, Built operand.tensor)
      (h : TensorLogic.join output operands combine s = .ok joined s') : Built joined.tensor
  | reduce {α β σ : Type} [Cell β] {output : String} {operands : List (Labelled α)}
      {combine : List α → Run σ β} {aggregate : List β → Run σ β} {r : Tensor β} {s s' : σ}
      (hoperands : ∀ operand ∈ operands, Built operand.tensor)
      (h : TensorLogic.reduce output operands combine aggregate s = .ok r s') : Built r
  | reshape {α : Type} {t r : Tensor α} {target : Shape} {axes : List Axis} (ht : Built t)
      (h : t.reshape target axes = .ok r) (hfits : t.Fits target axes) : Built r

/-- The induction over the sequence: only views have anything to show. -/
theorem Built.contained {t : Tensor α} (h : Built t) : t.Contained := by
  induction h with
  | constant shape value => exact constant_contained shape value
  | scalar value => exact constant_contained [] value
  | vector h => exact vector_contained h
  | ofCells h => exact ofCells_contained h
  | generate h => exact generate_contained h
  | map _ h _ => exact map_contained h
  | map2 _ _ h _ _ => exact fill_contained (map2_ok h).2
  | fold _ h _ => exact fold_contained h
  | stack _ h _ => exact stack_contained h
  | unconcat _ h hpart ih => exact ih.unconcat h hpart
  | join _ h _ => exact join_contained h
  | reduce _ h _ =>
      unfold TensorLogic.reduce at h
      obtain ⟨joined, s₁, -, hfold⟩ := Run.bind_eq_ok.mp h
      exact fold_contained hfold
  | reshape _ h hfits ih => exact ih.reshape h hfits

/-- Every index of a built tensor has its cell inside the buffer, and no operation on
built tensors reads beyond one. A reshape keeps that exactly if it fits, and one that
names each source axis at most once does. -/
theorem built_contained {t : Tensor α} (ht : Built t) :
    (∀ index ∈ t.shape.indices, ∃ h : t.offset + dot index t.strides < t.buffer.size,
      t.get index = .ok t.buffer[t.offset + dot index t.strides]) ∧
    (∃ cells, t.cells = .ok cells) ∧
    (∀ [BEq α] (u : Tensor α), Built u → ∃ answer, Tensor.equal t u = .ok answer) ∧
    (∀ {β σ : Type} [Cell β] (f : α → Run σ β), (∀ a, (f a).Intact) → (t.map f).Intact) ∧
    (∀ {β γ σ : Type} [Cell γ] (u : Tensor β) (f : α → β → Run σ γ), Built u →
      (∀ a b, (f a b).Intact) → (Tensor.map2 t u f).Intact) ∧
    (∀ {β σ : Type} [Cell α] [Cell β] (axes : Nat) (f : List α → Run σ β),
      (∀ cells, (f cells).Intact) → (t.fold axes f).Intact) ∧
    (∀ [Cell α], Intact t.toVec) ∧
    (∀ [Cell α] (parts : List (Tensor α)), (∀ part ∈ parts, Built part) →
      Intact (stack parts)) ∧
    (∀ {β σ : Type} [Cell β] (output : String) (operands : List (Labelled α))
      (combine : List α → Run σ β) (aggregate : List β → Run σ β),
      (∀ operand ∈ operands, Built operand.tensor) → (∀ cells, (combine cells).Intact) →
      (∀ cells, (aggregate cells).Intact) → (join output operands combine).Intact ∧
        (reduce output operands combine aggregate).Intact) ∧
    ∀ (target : Shape) (axes : List Axis) (r : Tensor α), t.reshape target axes = .ok r →
      ((∀ index ∈ r.shape.indices, r.offset + dot index r.strides < r.buffer.size) ↔
        t.Fits target axes) ∧
      ((Axis.sources axes).Nodup → t.Fits target axes) := by
  have hc := ht.contained
  refine ⟨fun index hindex => hc.get_eq hindex, hc.cells_ok, ?_, ?_, ?_, ?_, hc.toVec_intact,
    ?_, ?_, ?_⟩
  · intro _ u hu
    exact equal_ok hc.readable hu.contained.readable
  · intro β σ _ f hf
    exact map_intact hc hf
  · intro β γ σ _ u f hu hf
    exact map2_intact hc hu.contained hf
  · intro β σ _ _ axes f hf
    exact fold_intact hc axes hf
  · intro _ parts hparts
    exact stack_intact fun part hpart => (hparts part hpart).contained
  · intro β σ _ output operands combine aggregate hoperands hcombine haggregate
    have hall : ∀ operand ∈ operands, operand.tensor.Contained :=
      fun operand hoperand => (hoperands operand hoperand).contained
    exact ⟨join_intact hall hcombine, reduce_intact hall hcombine haggregate⟩
  · intro target axes r h
    exact ⟨reshape_inside_iff h, fun honce => hc.fits_of_nodup h honce⟩

/-- Six numbers in two rows, stored by row. -/
def twoRows : Tensor Nat :=
  { shape := [2, 3], strides := [3, 1], offset := 0, buffer := #[1, 2, 3, 4, 5, 6] }

/-- The same numbers, read by column. -/
def threeRows : Tensor Nat :=
  { shape := [3, 2], strides := [1, 3], offset := 0, buffer := #[1, 2, 3, 4, 5, 6] }

theorem built_threeRows : Built threeRows := by
  have hrows : Tensor.ofCells [2, 3] #[1, 2, 3, 4, 5, 6] = .ok twoRows := rfl
  have hview : twoRows.reshape [3, 2] [.source 1, .source 0] = .ok threeRows := rfl
  exact .reshape (.ofCells hrows) hview (.inr (by decide))

theorem built_contained_threeRows :
    Built threeRows ∧
      (∀ index ∈ threeRows.shape.indices,
        threeRows.offset + dot index threeRows.strides < threeRows.buffer.size) ∧
      threeRows.get [2, 0] = .ok 3 := by
  obtain ⟨hget, -⟩ := built_contained built_threeRows
  refine ⟨built_threeRows, fun index hindex => (hget index hindex).1, ?_⟩
  obtain ⟨_, hcell⟩ := hget [2, 0] (by decide)
  exact hcell

/-- A diagonal view the wrong way round: both target axes run along the one source axis,
and the last index is two strides behind the first in a buffer of two cells. -/
theorem reshape_overruns :
    ∃ v r : Tensor Nat, Tensor.vector #[7, 7] = .ok v ∧
      v.reshape [2, 2] [.source 0, .source 0] = .ok r ∧ [1, 1] ∈ r.shape.indices ∧
      ¬ r.offset + dot [1, 1] r.strides < r.buffer.size ∧
      r.get [1, 1] = .error (.trapped .outOfBounds) :=
  ⟨_, _, rfl, rfl, by decide, by decide, rfl⟩

end TensorLogic
