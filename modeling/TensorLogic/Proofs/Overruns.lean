import TensorLogic.Proofs.Contraction
import TensorLogic.Proofs.Faults
import TensorLogic.Proofs.View
import TensorLogic.Proofs.Walk

/-!
# No read beyond a buffer

A tensor is contained if each index of its shape has its position inside the buffer.
On contained tensors no operation reads beyond a buffer: if it ever fails in that way,
then a function that it was given does. The trap `outOfBounds` is how such a failure
shows, so a computation is called intact if it never ends in it. That is a property of
what it fails by (`Run.intact_iff`), and is followed through a program as such.

Contained asks for less than `InBounds`, which also keeps positions off the shape
within the word, and it holds of every buffer that is freshly filled.
-/

namespace TensorLogic

variable {α β γ σ : Type}

/-- The request does not read beyond a buffer. -/
def Intact (x : Except Fault α) : Prop :=
  x ≠ .error (.trapped .outOfBounds)

/-- The computation does not read beyond a buffer, from any state. -/
def Run.Intact (x : Run σ α) : Prop :=
  ∀ s s', x s ≠ .error (.trapped .outOfBounds) s'

theorem intact_iff {x : Except Fault α} :
    Intact x ↔ FailsBy (· ≠ .trapped .outOfBounds) x := by
  refine ⟨fun h fault hfault heq => h (heq ▸ hfault), fun h hfault => ?_⟩
  exact h _ hfault rfl

theorem Run.intact_iff {x : Run σ α} :
    x.Intact ↔ x.FailsBy (· ≠ .trapped .outOfBounds) := by
  refine ⟨fun h s fault s' hfault heq => h s s' (heq ▸ hfault), fun h s s' hfault => ?_⟩
  exact h s _ s' hfault rfl

namespace Intact

theorem of_ok {x : Except Fault α} {a : α} (h : x = .ok a) : Intact x :=
  intact_iff.mpr (.of_ok h)

theorem bind {x : Except Fault α} {k : α → Except Fault β} (hx : Intact x)
    (hk : ∀ a, x = .ok a → Intact (k a)) : Intact (x >>= k) :=
  intact_iff.mpr ((intact_iff.mp hx).bind fun a ha => intact_iff.mp (hk a ha))

theorem mapM {f : α → Except Fault β} {l : List α} (h : ∀ a ∈ l, Intact (f a)) :
    Intact (l.mapM f) :=
  intact_iff.mpr (.mapM fun a ha => intact_iff.mp (h a ha))

end Intact

namespace Run.Intact

theorem lift {x : Except Fault α} (hx : TensorLogic.Intact x) :
    Run.Intact (liftM x : Run σ α) :=
  intact_iff.mpr (.lift (TensorLogic.intact_iff.mp hx))

theorem pure (a : α) : Run.Intact (Pure.pure a : Run σ α) :=
  intact_iff.mpr (.pure a)

theorem bind {x : Run σ α} {k : α → Run σ β} (hx : x.Intact)
    (hk : ∀ a, Returns x a → (k a).Intact) : (x >>= k).Intact :=
  intact_iff.mpr ((intact_iff.mp hx).bind fun a ha => intact_iff.mp (hk a ha))

/-- A request, with what it returned. -/
theorem lift_bind {x : Except Fault α} {k : α → Run σ β} (hx : TensorLogic.Intact x)
    (hk : ∀ a, x = .ok a → (k a).Intact) : Run.Intact (liftM x >>= k) :=
  (lift hx).bind fun a ha => hk a (returns_lift ha)

theorem value {x : Run Unit α} (hx : x.Intact) : TensorLogic.Intact x.value :=
  TensorLogic.intact_iff.mpr (intact_iff.mp hx).value

end Run.Intact

/-! ## Sizes -/

namespace Size

theorem word_intact (n : Nat) : Intact (Word.check n) :=
  intact_iff.mpr (word_failsBy (by simp) n)

theorem plain_intact (shape : Shape) : Intact (plain shape) :=
  intact_iff.mpr (plain_failsBy (by simp) shape)

theorem checked_intact (shape : Shape) : Intact (checked shape) :=
  intact_iff.mpr (checked_failsBy (by simp))

theorem reserve_intact (entries width : Nat) : Intact (reserve entries width) :=
  intact_iff.mpr (reserve_failsBy (by simp))

end Size

/-! ## Contained tensors -/

namespace Tensor

/-- Each index of the shape has its position inside the buffer, and the buffer is no
larger than the word can count. -/
structure Contained (t : Tensor α) : Prop where
  strides_length : t.strides.length = t.shape.length
  inside : ∀ index ∈ t.shape.indices, t.offset + dot index t.strides < t.buffer.size
  size_lt : t.buffer.size < Word.bound

theorem inside_iff {t : Tensor α} :
    (∀ index ∈ t.shape.indices, t.offset + dot index t.strides < t.buffer.size) ↔
      0 ∈ t.shape ∨ t.offset + reach t.shape t.strides < t.buffer.size := by
  constructor
  · intro h
    by_cases hzero : 0 ∈ t.shape
    · exact .inl hzero
    · exact .inr (h _ (last_mem_indices hzero))
  · rintro (hzero | hreach) index hindex
    · rw [Shape.indices_eq_nil_iff.mpr hzero] at hindex
      cases hindex
    · have := dot_le_reach hindex t.strides
      omega

theorem mem_of_advancePosition {whole : Index} {shape extents : Shape} {index : Index}
    {strides : List Nat} {pos result : Nat} (hlen : strides.length = extents.length)
    (hrank : index.length = extents.length)
    (h : advancePosition whole shape index extents strides pos = .ok result) :
    index ∈ extents.indices := by
  induction extents generalizing index strides pos with
  | nil =>
      cases List.eq_nil_of_length_eq_zero hrank
      simp [Shape.indices]
  | cons n extents ih =>
      obtain ⟨i, index, rfl⟩ := List.exists_cons_of_length_eq_add_one hrank
      obtain ⟨s, strides, rfl⟩ := List.exists_cons_of_length_eq_add_one hlen
      rw [advancePosition] at h
      split at h
      next hi =>
          obtain ⟨next, -, hrest⟩ := TensorLogic.bind_eq_ok.mp h
          exact Shape.cons_mem_indices.mpr
            ⟨hi, ih (Nat.succ.inj hlen) (Nat.succ.inj hrank) hrest⟩
      next => cases h

theorem advancePosition_intact (whole : Index) (shape : Shape) (index : Index)
    (extents : Shape) (strides : List Nat) (pos : Nat) :
    Intact (advancePosition whole shape index extents strides pos) := by
  fun_induction advancePosition whole shape index extents strides pos with
  | case1 i index n extents s strides pos hi ih =>
      exact (Size.word_intact _).bind fun next _ => ih next
  | case2 =>
      intro h
      cases h
  | case3 => exact .of_ok rfl

namespace Contained

variable {t : Tensor α} (ht : t.Contained)

include ht

theorem position_eq {index : Index} (hindex : index ∈ t.shape.indices) :
    t.position index = .ok (t.offset + dot index t.strides) := by
  have hinside := ht.inside index hindex
  have hsize := ht.size_lt
  rw [position, rank, if_pos (Shape.length_of_mem_indices hindex)]
  exact advancePosition_ok ht.strides_length hindex (by omega)

theorem get_eq {index : Index} (hindex : index ∈ t.shape.indices) :
    ∃ h : t.offset + dot index t.strides < t.buffer.size,
      t.get index = .ok t.buffer[t.offset + dot index t.strides] := by
  refine ⟨ht.inside index hindex, ?_⟩
  rw [get, ht.position_eq hindex]
  exact InBounds.cellAt_ok (ht.inside index hindex)

theorem readable : t.Readable := by
  intro index hindex
  obtain ⟨_, hget⟩ := ht.get_eq hindex
  exact ⟨_, hget⟩

/-- At an index off the shape a read fails before it comes to the buffer. -/
theorem get_intact (index : Index) : Intact (t.get index) := by
  by_cases hindex : index ∈ t.shape.indices
  · obtain ⟨_, hget⟩ := ht.get_eq hindex
    exact .of_ok hget
  · rw [get, position]
    split
    next hrank =>
        refine (advancePosition_intact _ _ _ _ _ _).bind fun pos hpos => ?_
        exact absurd (mem_of_advancePosition ht.strides_length hrank hpos) hindex
    next =>
        intro h
        cases h

theorem cells_ok : ∃ cells, t.cells = .ok cells := by
  obtain ⟨cells, hcells⟩ := mapM_ok_of_forall ht.readable
  rw [Tensor.cells, Shape.collect_eq, hcells]
  exact ⟨cells.toArray, rfl⟩

end Contained

/-! ## Fresh buffers -/

theorem constant_contained (shape : Shape) (value : α) : (constant shape value).Contained := by
  obtain ⟨hbounds, -⟩ := constant_spec shape value
  exact ⟨hbounds.strides_length, hbounds.inside, by simp [constant, Word.bound]⟩

theorem dense_contained {shape : Shape} {buffer : Array α} {t : Tensor α}
    (h : dense shape buffer = .ok t) (hsize : buffer.size = shape.cells) : t.Contained := by
  obtain ⟨-, hbounds, -⟩ := dense_spec h hsize
  refine ⟨hbounds.strides_length, hbounds.inside, ?_⟩
  obtain ⟨strides, hplain, -, rfl⟩ := dense_eq_ok h
  rw [hsize]
  exact (Size.plain_ok hplain).2

theorem fill_contained {shape : Shape} {f : Index → Run σ α} {r : Tensor α} {s s' : σ}
    (h : fill shape f s = .ok r s') : r.Contained := by
  rw [fill, Shape.collect_eq] at h
  obtain ⟨buffer, s₁, hbuffer, hdense⟩ := Run.bind_eq_ok.mp h
  rw [map_eq_pure_bind] at hbuffer
  obtain ⟨cells, s₂, hcells, hpure⟩ := Run.bind_eq_ok.mp hbuffer
  cases hpure
  refine dense_contained (Run.lift_eq_ok.mp hdense).1 ?_
  rw [List.size_toArray, ← (Run.mapM_ok hcells).length_eq, Shape.length_indices]

theorem fill_intact {shape : Shape} {f : Index → Run σ α}
    (h : ∀ index ∈ shape.indices, (f index).Intact) : (fill shape f).Intact := by
  refine Run.intact_iff.mpr (fill_failsBy (fun _ => by simp) fun index hindex => ?_)
  exact Run.intact_iff.mp (h index hindex)

theorem grown_intact [Cell α] {shape : Shape} {f : Index → Run σ α} {index : Index}
    (h : (f index).Intact) : (grown shape f index).Intact :=
  h.bind fun _ _ => Run.Intact.lift_bind (Size.reserve_intact _ _) fun _ _ => .pure _

theorem throw_intact {fault : Fault} (h : fault ≠ .trapped .outOfBounds) :
    Run.Intact (throw fault : Run σ α) := by
  intro s s' hfault
  cases hfault
  exact h rfl

theorem generate_intact [Cell α] {shape : Shape} {f : Index → Run σ α}
    (h : ∀ index ∈ shape.indices, (f index).Intact) : (generate shape f).Intact := by
  rw [generate_eq]
  split
  · exact throw_intact (by simp)
  · exact Run.Intact.lift_bind (Size.reserve_intact _ _) fun _ _ => fill_intact h

/-! ## Operations on contained tensors -/

theorem map_intact [Cell β] {t : Tensor α} (ht : t.Contained) {f : α → Run σ β}
    (hf : ∀ a, (f a).Intact) : (t.map f).Intact := by
  rw [map_eq]
  exact fill_intact fun index _ =>
    grown_intact (Run.Intact.lift_bind (ht.get_intact index) fun a _ => hf a)

theorem map2_intact [Cell γ] {a : Tensor α} {b : Tensor β} (ha : a.Contained) (hb : b.Contained)
    {f : α → β → Run σ γ} (hf : ∀ x y, (f x y).Intact) : (map2 a b f).Intact := by
  rw [map2_eq]
  split
  · refine fill_intact fun index _ => grown_intact ?_
    refine Run.Intact.lift_bind (ha.get_intact index) fun x _ => ?_
    exact Run.Intact.lift_bind (hb.get_intact index) fun y _ => hf x y
  · exact throw_intact (by simp)

theorem blockOffsets_intact (shape : Shape) (strides : List Nat) :
    Intact (blockOffsets shape strides) := by
  rw [blockOffsets, gather_eq, Shape.collect_eq]
  refine Intact.bind (Run.Intact.value ?_) fun _ _ => .of_ok rfl
  rw [map_eq_pure_bind]
  refine Run.Intact.bind (Run.intact_iff.mpr (.mapM fun index _ => ?_)) fun _ _ => .pure _
  exact Run.intact_iff.mp (grown_intact (.lift (Size.word_intact _)))

theorem blockOffsets_ok {shape : Shape} {strides offsets : List Nat}
    (h : blockOffsets shape strides = .ok offsets) :
    offsets = shape.indices.map (dot · strides) := by
  rw [blockOffsets, gather_eq, Shape.collect_eq, map_eq_pure_bind] at h
  obtain ⟨found, hfound, h⟩ := TensorLogic.bind_eq_ok.mp h
  obtain ⟨cells, s, hcells, hpure⟩ := Run.bind_eq_ok.mp (Run.value_eq_ok.mp hfound)
  cases hpure
  cases h
  have hall := (Run.mapM_ok hcells).imp fun _ _ hcheck =>
    Size.word_ok (Run.returns_lift (returns_of_grown hcheck))
  rw [← List.forall₂_eq_eq_eq, List.forall₂_map_right_iff]
  exact hall.flip

/-- The positions of a block are positions of the tensor. -/
theorem block_intact {t : Tensor α} (ht : t.Contained) {axes base : Nat} {index : Index}
    (hindex : index ∈ (t.outerShape axes).indices)
    (hbase : base = t.offset + dot index (t.strides.take (t.rank - axes))) :
    Intact (t.block ((t.innerShape axes).indices.map
      (dot · (t.strides.drop (t.rank - axes)))) base) := by
  rw [block, List.mapM_map]
  refine Intact.mapM fun j hj => ?_
  refine (Size.word_intact _).bind fun pos hpos => ?_
  have hinside := ht.inside _ (append_mem_indices hindex hj)
  rw [dot_append_eq, length_outer hindex] at hinside
  have hsum : pos = base + dot j (t.strides.drop (t.rank - axes)) := Size.word_ok hpos
  exact .of_ok (InBounds.cellAt_ok (by omega))

theorem fold_intact [Cell α] [Cell β] {t : Tensor α} (ht : t.Contained) (axes : Nat)
    {f : List α → Run σ β} (hf : ∀ cells, (f cells).Intact) : (t.fold axes f).Intact := by
  unfold Tensor.fold
  split
  · exact throw_intact (by simp)
  · refine Run.Intact.lift_bind (blockOffsets_intact _ _) fun offsets hoffsets => ?_
    refine Run.Intact.lift_bind (Size.reserve_intact _ _) fun _ _ => ?_
    refine Run.Intact.lift_bind (Size.plain_intact _) fun size _ => ?_
    refine Run.Intact.lift_bind (Size.reserve_intact _ _) fun _ _ => ?_
    refine fill_intact fun index hindex => ?_
    refine Run.Intact.lift_bind (Size.word_intact _) fun base hbase => ?_
    refine Run.Intact.lift_bind ?_ fun cells _ => hf cells
    rw [blockOffsets_ok hoffsets]
    exact block_intact ht hindex (Size.word_ok hbase)

theorem Contained.toVec_intact [Cell α] {t : Tensor α} (ht : t.Contained) :
    Intact t.toVec := by
  rw [toVec, gather_eq, Shape.collect_eq, map_eq_pure_bind]
  refine Run.Intact.value (.bind (Run.intact_iff.mpr (.mapM fun index _ => ?_)) fun _ _ => .pure _)
  exact Run.intact_iff.mp (grown_intact (.lift (ht.get_intact index)))

theorem stack_intact [Cell α] {parts : List (Tensor α)} (h : ∀ part ∈ parts, part.Contained) :
    Intact (stack parts) := by
  cases parts with
  | nil =>
      intro hfault
      cases hfault
  | cons first rest =>
      rw [stack_cons_eq]
      split
      · intro hfault
        cases hfault
      · refine (Size.checked_intact _).bind fun _ _ => Run.Intact.value ?_
        refine generate_intact fun index hindex => Run.Intact.lift ?_
        obtain ⟨i, -, k, hk, rfl⟩ := Shape.mem_indices_concat.mp hindex
        rw [stackCell_append hk]
        exact (h _ (List.getElem_mem hk)).get_intact i

end Tensor

/-! ## Joins -/

theorem Join.jointAxes_intact (output : String) (operands : List (Labelled α)) :
    Intact (jointAxes output operands) :=
  intact_iff.mpr (jointAxes_failsBy (fun _ => by simp) output operands)

theorem join_intact [Cell β] {output : String} {operands : List (Labelled α)}
    (h : ∀ operand ∈ operands, operand.tensor.Contained) {combine : List α → Run σ β}
    (hcombine : ∀ cells, (combine cells).Intact) : (join output operands combine).Intact := by
  rw [Join.join_eq]
  refine Run.Intact.lift_bind (Join.jointAxes_intact _ _) fun axes _ => ?_
  refine Run.Intact.lift_bind (Size.checked_intact _) fun _ _ => ?_
  refine Run.Intact.bind (Tensor.generate_intact fun index _ => ?_) fun _ _ => .pure _
  refine Run.Intact.lift_bind (Intact.mapM fun operand hoperand => ?_) fun cells _ =>
    hcombine cells
  exact (h operand hoperand).get_intact _

theorem join_contained [Cell β] {output : String} {operands : List (Labelled α)}
    {combine : List α → Run σ β} {joined : Joined β} {s s' : σ}
    (h : join output operands combine s = .ok joined s') : joined.tensor.Contained := by
  obtain ⟨-, -, _, -, hfill⟩ := Join.join_ok h
  exact Tensor.fill_contained hfill

theorem reduce_intact [Cell β] {output : String} {operands : List (Labelled α)}
    (h : ∀ operand ∈ operands, operand.tensor.Contained) {combine : List α → Run σ β}
    {aggregate : List β → Run σ β} (hcombine : ∀ cells, (combine cells).Intact)
    (haggregate : ∀ cells, (aggregate cells).Intact) :
    (reduce output operands combine aggregate).Intact := by
  refine (join_intact h hcombine).bind fun joined hjoined => ?_
  obtain ⟨s, s', hjoin⟩ := hjoined
  exact Tensor.fold_intact (join_contained hjoin) _ haggregate

end TensorLogic
