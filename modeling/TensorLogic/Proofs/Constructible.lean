import TensorLogic.Problem.Basic
import TensorLogic.Proofs.Faults
import TensorLogic.Proofs.Names
import TensorLogic.Proofs.Returns
import TensorLogic.Proofs.View
import TensorLogic.Session.Standard

/-!
# Shapes that can be constructed

A shape is accepted if its cells can be counted from the left. To lay out a tensor its
strides are needed as well, and they are multiplied from the right through every extent.
A 0 ends the first count and not the second, which goes on through what stands behind.

The products from the right are words exactly if the one behind the last 0 is
(`Shape.cells_drop_lt_iff`), and of an accepted shape this decides whether tensors of it
can be made from cells, filled, stacked, joined and allocated
(`accepted_constructible_iff`). Shapes without an extent 0 always can. A shape that fails
has no cell, and yet every attempt to make a tensor of it traps.
-/

namespace TensorLogic

variable {α β σ : Type} {P : Fault → Prop}

namespace Shape

/-- The extents behind the last 0, which are all of them if there is none. -/
def behindZero : Shape → Shape
  | [] => []
  | n :: rest =>
      if 0 ∈ rest then behindZero rest else if n = 0 then rest else n :: rest

theorem behindZero_eq {shape : Shape} (h : 0 ∉ shape) : shape.behindZero = shape := by
  cases shape with
  | nil => rfl
  | cons n rest =>
      rw [List.mem_cons, not_or] at h
      rw [behindZero, if_neg h.2, if_neg (Ne.symm h.1)]

/-- The largest product of trailing extents is the one behind the last 0. -/
theorem cells_drop_lt_iff {shape : Shape} :
    (∀ k, cells (shape.drop k) < Word.bound) ↔ shape.behindZero.cells < Word.bound := by
  induction shape with
  | nil => simp [behindZero]
  | cons n rest ih =>
      have hsplit : (∀ k, cells ((n :: rest).drop k) < Word.bound) ↔
          n * cells rest < Word.bound ∧ cells (behindZero rest) < Word.bound := by
        rw [← ih]
        refine ⟨fun h => ⟨h 0, fun k => h (k + 1)⟩, fun h k => ?_⟩
        cases k with
        | zero => exact h.1
        | succ k => exact h.2 k
      rw [hsplit, behindZero]
      -- a 0 in the rest hides the first extent, otherwise the whole product is the largest
      by_cases hzero : 0 ∈ rest
      · rw [if_pos hzero, cells_eq_zero_iff.mpr hzero, Nat.mul_zero]
        exact and_iff_right (by decide)
      · rw [if_neg hzero, behindZero_eq hzero]
        split
        next hn =>
            rw [hn, Nat.zero_mul]
            exact and_iff_right (by decide)
        next hn =>
            have hle : cells rest ≤ n * cells rest :=
              Nat.le_mul_of_pos_left _ (Nat.pos_of_ne_zero hn)
            exact ⟨fun h => h.1, fun h => ⟨h, Nat.lt_of_le_of_lt hle h⟩⟩

theorem storable_iff_behindZero {shape : Shape} {n : Nat} (h : Size.checked shape = .ok n) :
    shape.Storable ↔ shape.behindZero.cells < Word.bound := by
  obtain ⟨rfl, -, hplain⟩ := Size.checked_ok h
  rw [← cells_drop_lt_iff, ← Size.rowMajor_ok_iff, Storable, exists_and_left,
    and_iff_right hplain]

end Shape

/-! ## Tensors of a given shape -/

namespace Tensor

variable {shape : Shape} {cell : Index → Run σ α}

/-- A generated tensor fails by what a cell fails by, or by one of three traps if its size
does not fit. -/
theorem generate_failsBy [Cell α]
    (hsize : ¬ shape.Fillable α → P (.trapped .overflow) ∧ P (.trapped (.oversized shape)) ∧
      P (.trapped (.capacity shape.cells)))
    (hcell : ∀ index ∈ shape.indices, (cell index).FailsBy P) :
    (generate shape cell).FailsBy P := by
  rw [generate_eq]
  by_cases hfill : shape.Fillable α
  · rw [hfill.product?_eq]
    refine Run.FailsBy.lift_bind (.of_ok hfill.reserved) fun _ _ => ?_
    exact fill_failsBy (fun h => absurd hfill.storable h) hcell
  · obtain ⟨hoverflow, hoversized, hcapacity⟩ := hsize hfill
    split
    next => exact .throw hoversized
    next size hproduct =>
        obtain ⟨rfl, -⟩ := Size.checked_ok (Size.checked_ok_iff.mpr hproduct)
        exact Run.FailsBy.lift_bind (Size.reserve_failsBy hcapacity) fun _ _ =>
          fill_failsBy (fun _ => hoverflow) hcell

/-- Cells given as a list are laid out if there is one for each index. -/
theorem ofCells_eq (h : shape.Storable) (cells : Array α) :
    ofCells shape cells = if cells.size = shape.cells then dense shape cells
      else refuse (.elementCount shape shape.cells cells.size) := by
  rw [ofCells, h.checked]
  by_cases hsize : cells.size = shape.cells
  · rw [if_pos hsize]
    simp [bind, Except.bind, hsize]
  · rw [if_neg hsize]
    simp [bind, Except.bind, Ne.symm hsize, refuse, throw, throwThe, MonadExceptOf.throw]

/-- A shape that is accepted and cannot be laid out has no cell. -/
theorem zero_mem_of_not_storable {n : Nat} (hchecked : Size.checked shape = .ok n)
    (h : ¬ shape.Storable) : 0 ∈ shape := by
  by_contra hzero
  rw [Shape.storable_iff_behindZero hchecked, Shape.behindZero_eq hzero] at h
  obtain ⟨rfl, hlt, -⟩ := Size.checked_ok hchecked
  exact h hlt

theorem dense_of_not_storable (h : ¬ shape.Storable) (buffer : Array α) :
    dense shape buffer = .error (.trapped .overflow) := by
  cases hdense : dense shape buffer with
  | ok t =>
      obtain ⟨strides, hplain, hrow, -⟩ := dense_eq_ok hdense
      exact absurd ⟨strides, hplain, hrow⟩ h
  | error fault =>
      have hfault : fault = .trapped .overflow :=
        dense_failsBy (P := (· = .trapped .overflow)) (fun _ => rfl) buffer fault hdense
      rw [hfault]

theorem ofCells_of_not_storable {n : Nat} (hchecked : Size.checked shape = .ok n)
    (h : ¬ shape.Storable) :
    ofCells shape (#[] : Array α) = .error (.trapped .overflow) := by
  have hzero := Shape.cells_eq_zero_iff.mpr (zero_mem_of_not_storable hchecked h)
  obtain ⟨rfl, -, -⟩ := Size.checked_ok hchecked
  rw [ofCells, hchecked, hzero]
  exact dense_of_not_storable h #[]

/-- No cell is asked for before the trap. -/
theorem generate_of_not_storable [Cell α] {n : Nat} (hchecked : Size.checked shape = .ok n)
    (h : ¬ shape.Storable) (s : σ) :
    generate shape cell s = .error (.trapped .overflow) s := by
  have hmem := zero_mem_of_not_storable hchecked h
  obtain rfl : n = 0 := (Size.checked_ok hchecked).1.trans (Shape.cells_eq_zero_iff.mpr hmem)
  have hproduct := Size.checked_ok_iff.mp hchecked
  have hfill : fill shape cell = liftM (dense shape (#[] : Array α)) := by
    rw [fill, Shape.collect_eq, Shape.indices_eq_nil_iff.mpr hmem]
    rfl
  rw [generate_eq, hproduct, hfill, dense_of_not_storable h]
  simp only [Size.reserve_ok_iff.mpr (show 0 * Cell.width α < Nat.pow 2 63 by simp)]
  rfl

end Tensor

/-! ## Operations that make a tensor of a given shape -/

/-- No operation that makes a tensor of the shape stops for its size. Whatever stops it is
a cell that cannot be had; if all cells can, the tensor comes out. The buffer has to be
within what can be asked for at all. -/
structure Constructible (shape : Shape) : Prop where
  strides : ∃ strides, Size.rowMajor shape = .ok (strides, shape.cells)
  ofCells {α : Type} (cells : Array α) :
    (∃ t, Tensor.ofCells shape cells = .ok t) ↔ cells.size = shape.cells
  ofCells_failsBy {α : Type} (cells : Array α) :
    FailsBy (· = .refused (.elementCount shape shape.cells cells.size))
      (Tensor.ofCells shape cells)
  generate {α σ : Type} [Cell α] {P : Fault → Prop} {cell : Index → Run σ α} :
    Size.reserve shape.cells (Cell.width α) = .ok () →
      (∀ index ∈ shape.indices, (cell index).FailsBy P) →
      (Tensor.generate shape cell).FailsBy P
  stack {α : Type} [Cell α] {P : Fault → Prop} {front : Shape} {parts : List (Tensor α)} :
    Size.reserve shape.cells (Cell.width α) = .ok () →
      parts ≠ [] → (∀ part ∈ parts, part.shape = front) → front ++ [parts.length] = shape →
      (∀ part ∈ parts, ∀ index ∈ front.indices, FailsBy P (part.get index)) →
      FailsBy P (Tensor.stack parts)
  join {α β σ : Type} [Cell β] {P : Fault → Prop} {output : String} {operands : List (Labelled α)}
      {combine : List α → Run σ β} {axes : List JointAxis × List JointAxis} :
    Size.reserve shape.cells (Cell.width β) = .ok () →
      Join.jointAxes output operands = .ok axes →
      (axes.1 ++ axes.2).map (·.extent) = shape →
      (∀ index ∈ shape.indices, FailsBy P (Join.readAll output operands index)) →
      (∀ cells, (combine cells).FailsBy P) → (TensorLogic.join output operands combine).FailsBy P
  allocate {σ : Type} [Session σ] {P : Fault → Prop} :
    Size.reserve shape.cells (Cell.width Literal) = .ok () →
      (Session.allocate : Run σ Literal).FailsBy P →
      (Session.tensor shape : Run σ (Tensor Literal)).FailsBy P

namespace Shape.Fillable

variable {shape : Shape}

theorem generate_failsBy [Cell α] (h : shape.Fillable α) {cell : Index → Run σ α}
    (hcell : ∀ index ∈ shape.indices, (cell index).FailsBy P) :
    (Tensor.generate shape cell).FailsBy P :=
  Tensor.generate_failsBy (fun hnot => absurd h hnot) hcell

theorem stack_failsBy [Cell α] (h : shape.Fillable α) {front : Shape} {parts : List (Tensor α)}
    (hne : parts ≠ []) (hparts : ∀ part ∈ parts, part.shape = front)
    (hshape : front ++ [parts.length] = shape)
    (hread : ∀ part ∈ parts, ∀ index ∈ front.indices, FailsBy P (part.get index)) :
    FailsBy P (Tensor.stack parts) := by
  rw [Tensor.stack_eq hne hparts, hshape]
  refine FailsBy.bind (.of_ok h.checked) fun _ _ => ?_
  refine Run.FailsBy.value (h.generate_failsBy fun index hindex => .lift ?_)
  -- the last coordinate picks the part, the others a cell of it
  rw [← hshape] at hindex
  obtain ⟨i, hi, k, hk, rfl⟩ := Shape.mem_indices_concat.mp hindex
  rw [Tensor.stackCell_append hk]
  exact hread _ (List.getElem_mem hk) i hi

theorem join_failsBy [Cell β] (h : shape.Fillable β) {output : String}
    {operands : List (Labelled α)} {combine : List α → Run σ β}
    {axes : List JointAxis × List JointAxis} (haxes : Join.jointAxes output operands = .ok axes)
    (hshape : (axes.1 ++ axes.2).map (·.extent) = shape)
    (hread : ∀ index ∈ shape.indices, FailsBy P (Join.readAll output operands index))
    (hcombine : ∀ cells, (combine cells).FailsBy P) : (join output operands combine).FailsBy P := by
  rw [Join.join_eq, haxes]
  refine Run.FailsBy.lift_bind (.of_ok rfl) fun axes' haxes' => ?_
  cases haxes'
  rw [hshape]
  refine Run.FailsBy.lift_bind (.of_ok h.checked) fun _ _ => ?_
  refine Run.FailsBy.bind (h.generate_failsBy fun index hindex => ?_) fun _ _ => .pure _
  exact Run.FailsBy.lift_bind (hread index hindex) fun cells _ => hcombine cells

end Shape.Fillable

theorem Shape.Storable.constructible {shape : Shape} (h : shape.Storable) :
    Constructible shape where
  strides := h.imp fun _ hstrides => hstrides.2
  ofCells cells := by
    rw [Tensor.ofCells_eq h]
    split
    next hsize => exact iff_of_true (Tensor.dense_of_storable h cells) hsize
    next hsize =>
        refine iff_of_false ?_ hsize
        rintro ⟨t, ht⟩
        cases ht
  ofCells_failsBy cells := by
    rw [Tensor.ofCells_eq h]
    split
    next => exact Tensor.dense_failsBy (fun hnot => absurd h hnot) cells
    next => exact .throw rfl
  generate hreserved hcell := Shape.Fillable.generate_failsBy ⟨h, hreserved⟩ hcell
  stack hreserved := Shape.Fillable.stack_failsBy ⟨h, hreserved⟩
  join hreserved := Shape.Fillable.join_failsBy ⟨h, hreserved⟩
  allocate hreserved hallocate :=
    Shape.Fillable.generate_failsBy ⟨h, hreserved⟩ fun _ _ => hallocate

/-! ## Declared problems -/

namespace Problem

/-- What a problem holds was declared, and its shape was accepted. -/
theorem enterShapes_ok {declared : List (String × Shape)} {known shapes : NameMap Shape}
    (h : enterShapes declared known = .ok shapes) {entry : String × Shape}
    (hentry : entry ∈ shapes.entries) :
    entry ∈ known.entries ∨ entry ∈ declared ∧ ∃ n, Size.checked entry.2 = .ok n := by
  induction declared generalizing known with
  | nil =>
      cases h
      exact .inl hentry
  | cons declaration declared ih =>
      obtain ⟨n, hn, h⟩ := bind_eq_ok.mp h
      split at h
      next => cases h
      next =>
          rcases ih h with hknown | ⟨hdeclared, hchecked⟩
          · rcases NameMap.mem_insertEntry hknown with rfl | hknown
            · exact .inr ⟨List.mem_cons_self, n, hn⟩
            · exact .inl hknown
          · exact .inr ⟨List.mem_cons_of_mem _ hdeclared, hchecked⟩

theorem declare_ok {declared : List (String × Shape)} {formula : Formula} {p : Problem}
    (h : declare declared formula = .ok p) {entry : String × Shape}
    (hentry : entry ∈ p.shapes.entries) :
    entry ∈ declared ∧ ∃ n, Size.checked entry.2 = .ok n := by
  obtain ⟨shapes, hshapes, hp⟩ := bind_eq_ok.mp h
  cases hp
  rcases enterShapes_ok hshapes hentry with hempty | hdeclared
  · cases hempty
  · exact hdeclared

theorem allocate_failsBy [Session σ] {p : Problem}
    (hfill : ∀ entry ∈ p.shapes.entries, entry.2.Fillable Literal)
    (hallocate : (Session.allocate : Run σ Literal).FailsBy P) :
    (p.allocate : Run σ (Bindings Literal)).FailsBy P := by
  refine Run.FailsBy.bind ?_ fun _ _ => .pure _
  refine Run.FailsBy.mapM fun entry hentry => ?_
  have htensor : (Session.tensor entry.2 : Run σ (Tensor Literal)).FailsBy P :=
    (hfill entry hentry).generate_failsBy fun _ _ => hallocate
  exact htensor.bind fun _ _ => .pure _

/-- What was allocated can be stored. -/
theorem storable_of_allocate [Session σ] {p : Problem} {literals : Bindings Literal} {s s' : σ}
    (h : p.allocate s = .ok literals s') :
    ∀ entry ∈ p.shapes.entries, entry.2.Storable := by
  intro entry hentry
  obtain ⟨hall, -⟩ := exists_of_forall₂ (Run.mapM_ok (NameMap.mapM_run h))
  obtain ⟨image, -, s₁, s₂, hrun⟩ := hall entry hentry
  obtain ⟨t, s₃, htensor, -⟩ := Run.bind_eq_ok.mp hrun
  exact (Tensor.fillable_of_generate htensor).storable

end Problem

/-- An accepted shape can be constructed exactly if the product of the extents behind its
last 0 is a word. A declared problem whose shapes are like that, each within what a buffer
can be asked for, allocates its literals unless the session itself fails, and a problem
with another shape never does. -/
theorem accepted_constructible_iff {shape : Shape} {n : Nat} (h : Size.checked shape = .ok n) :
    (Constructible shape ↔ shape.behindZero.cells < Word.bound) ∧
      (0 ∉ shape → Constructible shape) ∧
      (¬ Constructible shape →
        (∀ {α : Type}, Tensor.ofCells shape (#[] : Array α) = .error (.trapped .overflow)) ∧
        ∀ {α σ : Type} [Cell α] (cell : Index → Run σ α) (s : σ),
          Tensor.generate shape cell s = .error (.trapped .overflow) s) ∧
      ∀ {declared : List (String × Shape)} {formula : Formula} {p : Problem},
        Problem.declare declared formula = .ok p → ∀ {σ : Type} [Session σ],
          ((∀ entry ∈ declared, entry.2.behindZero.cells < Word.bound ∧
              Size.reserve entry.2.cells (Cell.width Literal) = .ok ()) →
            ∀ {P : Fault → Prop}, (Session.allocate : Run σ Literal).FailsBy P →
              (p.allocate : Run σ (Bindings Literal)).FailsBy P) ∧
          ∀ {literals : Bindings Literal} {s s' : σ}, p.allocate s = .ok literals s' →
            ∀ entry ∈ p.shapes.entries, Constructible entry.2 := by
  have hiff : Constructible shape ↔ shape.Storable := by
    refine ⟨fun hc => ?_, fun hs => hs.constructible⟩
    obtain ⟨rfl, -, hplain⟩ := Size.checked_ok h
    obtain ⟨strides, hrow⟩ := hc.strides
    exact ⟨strides, hplain, hrow⟩
  refine ⟨hiff.trans (Shape.storable_iff_behindZero h), fun hzero => ?_, fun hnot => ?_, ?_⟩
  · by_contra hnot
    exact hzero (Tensor.zero_mem_of_not_storable h fun hs => hnot hs.constructible)
  · have hstorable : ¬ shape.Storable := fun hs => hnot hs.constructible
    exact ⟨Tensor.ofCells_of_not_storable h hstorable,
      fun cell s => Tensor.generate_of_not_storable h hstorable s⟩
  · intro declared formula p hdeclare σ _
    refine ⟨fun hfit P hallocate => Problem.allocate_failsBy (fun entry hentry => ?_) hallocate,
      fun hallocate entry hentry => ?_⟩
    · obtain ⟨hmem, m, hchecked⟩ := Problem.declare_ok hdeclare hentry
      obtain ⟨hword, hreserved⟩ := hfit entry hmem
      exact ⟨(Shape.storable_iff_behindZero hchecked).mpr hword, hreserved⟩
    · exact (Problem.storable_of_allocate hallocate entry hentry).constructible

theorem accepted_constructible_iff_empty :
    Size.checked [2, 0, 3] = .ok 0 ∧ Constructible [2, 0, 3] := by
  have hchecked : Size.checked [2, 0, 3] = .ok 0 := rfl
  obtain ⟨hiff, -⟩ := accepted_constructible_iff hchecked
  exact ⟨hchecked, hiff.mpr (by decide)⟩

/-- The count from the left ends at the 0, the strides go through both large extents. -/
def behindLarge : Shape :=
  [0, 4294967296, 4294967296]

theorem accepted_not_constructible :
    Size.checked behindLarge = .ok 0 ∧
      Size.rowMajor behindLarge = .error (.trapped .overflow) ∧
      Tensor.ofCells behindLarge (#[] : Array Nat) = .error (.trapped .overflow) ∧
      Tensor.generate behindLarge (fun _ => (pure 0 : Run Unit Nat)) () =
        .error (.trapped .overflow) () ∧
      join "xyz" [(Tensor.constant behindLarge 0).named "xyz"]
        (fun _ => (pure 0 : Run Unit Nat)) () = .error (.trapped .overflow) () ∧
      ∃ p, Problem.declare [("x", behindLarge)] .truth = .ok p ∧
        p.compile ({} : StandardSession) = .error (.trapped .overflow) {} :=
  ⟨rfl, rfl, rfl, rfl, rfl, _, rfl, rfl⟩

end TensorLogic
