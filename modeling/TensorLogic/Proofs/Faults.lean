import TensorLogic.Proofs.Cells
import TensorLogic.Tensor.Join

/-!
# What stops a computation

`FailsBy P` says that whatever a computation stops by has the property `P`; about runs
that return it says nothing. The property is followed from step to step: a sequence stops
by what one of its steps stops by, and a traversal by what a single visit stops by.

Sizes stop by an overflow and by nothing else. So what fills a buffer stops by what one of
its cells stops by, or by an overflow, and by that only if the shape cannot be stored
(`Tensor.fill_failsBy`). The checks of the labels of a join stop by refusals only
(`Join.jointAxes_failsBy`).
-/

namespace TensorLogic

variable {α β σ : Type} {P : Fault → Prop}

/-- A request was not met, and nobody is to blame but the request. -/
def Fault.IsRefusal (fault : Fault) : Prop :=
  ∃ cause, fault = .refused cause

/-- Whatever the request stops by has the property. -/
def FailsBy (P : Fault → Prop) (x : Except Fault α) : Prop :=
  ∀ fault, x = .error fault → P fault

/-- Whatever the computation stops by, from any state, has the property. -/
def Run.FailsBy (P : Fault → Prop) (x : Run σ α) : Prop :=
  ∀ s fault s', x s = .error fault s' → P fault

namespace FailsBy

theorem of_ok {x : Except Fault α} {a : α} (h : x = .ok a) : FailsBy P x := by
  intro fault hfault
  rw [h] at hfault
  cases hfault

theorem throw {fault : Fault} (h : P fault) : FailsBy P (throw fault : Except Fault α) := by
  intro fault' hfault
  cases hfault
  exact h

theorem bind {x : Except Fault α} {k : α → Except Fault β} (hx : FailsBy P x)
    (hk : ∀ a, x = .ok a → FailsBy P (k a)) : FailsBy P (x >>= k) := by
  cases x with
  | error fault =>
      intro fault' hfault
      cases hfault
      exact hx fault rfl
  | ok a => exact hk a rfl

theorem forM {f : α → Except Fault Unit} {l : List α} (h : ∀ a ∈ l, FailsBy P (f a)) :
    FailsBy P (forM l f) := by
  induction l with
  | nil => exact .of_ok rfl
  | cons a l ih =>
      rw [List.forM_cons]
      exact .bind (h a List.mem_cons_self) fun _ _ =>
        ih fun b hb => h b (List.mem_cons_of_mem a hb)

theorem mapM {f : α → Except Fault β} {l : List α} (h : ∀ a ∈ l, FailsBy P (f a)) :
    FailsBy P (l.mapM f) := by
  induction l with
  | nil => exact of_ok rfl
  | cons a l ih =>
      rw [List.mapM_cons]
      refine (h a List.mem_cons_self).bind fun b _ => ?_
      have hrest := ih fun c hc => h c (List.mem_cons_of_mem _ hc)
      exact hrest.bind fun bs _ => of_ok rfl

end FailsBy

namespace Run.FailsBy

theorem pure (a : α) : Run.FailsBy P (Pure.pure a : Run σ α) := by
  intro s fault s' h
  cases h

theorem throw {fault : Fault} (h : P fault) : Run.FailsBy P (throw fault : Run σ α) := by
  intro s fault' s' hfault
  cases hfault
  exact h

theorem lift {x : Except Fault α} (hx : TensorLogic.FailsBy P x) :
    Run.FailsBy P (liftM x : Run σ α) := by
  intro s fault s' h
  cases x with
  | error fault' =>
      cases h
      exact hx _ rfl
  | ok a => cases h

theorem bind {x : Run σ α} {k : α → Run σ β} (hx : x.FailsBy P)
    (hk : ∀ a, Returns x a → (k a).FailsBy P) : (x >>= k).FailsBy P := by
  intro s fault s' h
  simp only [Bind.bind, EStateM.bind] at h
  cases hstep : x s with
  | ok a s₁ =>
      rw [hstep] at h
      exact hk a ⟨s, s₁, hstep⟩ s₁ fault s' h
  | error fault' s₁ =>
      rw [hstep] at h
      cases h
      exact hx s _ _ hstep

/-- A request, with what it returned. -/
theorem lift_bind {x : Except Fault α} {k : α → Run σ β} (hx : TensorLogic.FailsBy P x)
    (hk : ∀ a, x = .ok a → (k a).FailsBy P) : Run.FailsBy P (liftM x >>= k) :=
  (lift hx).bind fun a ha => hk a (returns_lift ha)

theorem mapM {f : α → Run σ β} {l : List α} (h : ∀ a ∈ l, (f a).FailsBy P) :
    Run.FailsBy P (l.mapM f) := by
  induction l with
  | nil => exact pure _
  | cons a l ih =>
      rw [List.mapM_cons]
      refine (h a List.mem_cons_self).bind fun b _ => ?_
      have hrest := ih fun c hc => h c (List.mem_cons_of_mem _ hc)
      exact hrest.bind fun bs _ => pure _

theorem value {x : Run Unit α} (hx : x.FailsBy P) : TensorLogic.FailsBy P x.value := by
  intro fault h
  unfold Run.value at h
  cases hstep : x () with
  | ok a s =>
      rw [hstep] at h
      cases h
  | error fault' s =>
      rw [hstep] at h
      cases h
      exact hx () _ s hstep

end Run.FailsBy

/-! ## Sizes and buffers -/

namespace Size

theorem word_failsBy (h : P (.trapped .overflow)) (n : Nat) : FailsBy P (Word.check n) := by
  rw [Word.check]
  split
  · exact .of_ok rfl
  · exact .throw h

theorem plain_failsBy (h : P (.trapped .overflow)) (shape : Shape) :
    FailsBy P (plain shape) := by
  rw [plain]
  split
  · exact .of_ok rfl
  · exact .throw h

theorem checked_failsBy {shape : Shape} (h : P (.refused (.tooLarge shape))) :
    FailsBy P (checked shape) := by
  rw [checked]
  split
  · exact .of_ok rfl
  · exact .throw h

theorem reserve_failsBy {entries width : Nat} (h : P (.trapped (.capacity entries))) :
    FailsBy P (reserve entries width) := by
  rw [reserve]
  split
  · exact .of_ok rfl
  · exact .throw h

theorem growing_failsBy {entries width : Nat} (h : ∀ n, P (.trapped (.capacity n))) :
    FailsBy P (growing entries width) := by
  rw [growing]
  exact .forM fun _ _ => reserve_failsBy (h _)

theorem block_failsBy {cells width : Nat} (h : ∀ n, P (.trapped (.capacity n))) :
    FailsBy P (block cells width) :=
  (growing_failsBy h).bind fun _ _ => reserve_failsBy (h _)

theorem rowMajor_failsBy (h : P (.trapped .overflow)) (shape : Shape) :
    FailsBy P (rowMajor shape) := by
  induction shape with
  | nil => exact .of_ok rfl
  | cons n rest ih =>
      rw [rowMajor]
      refine ih.bind fun r _ => ?_
      exact (word_failsBy h _).bind fun _ _ => .of_ok rfl

end Size

namespace Tensor

variable {shape : Shape} {cell : Index → Run σ α}

theorem dense_failsBy (hsize : ¬ shape.Storable → P (.trapped .overflow))
    (buffer : Array α) : FailsBy P (dense shape buffer) := by
  by_cases hstorable : shape.Storable
  · obtain ⟨t, ht⟩ := dense_of_storable hstorable buffer
    exact .of_ok ht
  · have htrap := hsize hstorable
    exact (Size.plain_failsBy htrap shape).bind fun _ _ =>
      (Size.rowMajor_failsBy htrap shape).bind fun _ _ => .of_ok rfl

theorem fill_failsBy (hsize : ¬ shape.Storable → P (.trapped .overflow))
    (hcell : ∀ index ∈ shape.indices, (cell index).FailsBy P) :
    (fill shape cell).FailsBy P := by
  rw [fill, Shape.collect_eq, bind_map_left]
  exact (Run.FailsBy.mapM hcell).bind fun _ _ => .lift (dense_failsBy hsize _)

end Tensor

/-! ## Labels -/

namespace Join

variable (h : ∀ cause, P (.refused cause))
include h

theorem enterAxes_failsBy (shape : Shape) (axes : List (Char × Nat)) (known : List JointAxis) :
    FailsBy P (enterAxes shape axes known) := by
  fun_induction enterAxes shape axes known with
  | case1 => exact .of_ok rfl
  | case2 _ _ _ _ _ ih => exact ih
  | case3 => exact .throw (h _)
  | case4 _ _ _ _ _ ih => exact ih

theorem collectAxes_failsBy (operands : List (Labelled α)) (known : List JointAxis) :
    FailsBy P (collectAxes operands known) := by
  induction operands generalizing known with
  | nil => exact .of_ok rfl
  | cons operand operands ih =>
      rw [collectAxes]
      dsimp only
      split
      · exact .throw (h _)
      · exact (enterAxes_failsBy h _ _ _).bind fun known _ => ih known

theorem outputAxes_failsBy (output : String) (known : List JointAxis) (labels : List Char)
    (chosen : List JointAxis) : FailsBy P (outputAxes output known labels chosen) := by
  induction labels generalizing chosen with
  | nil => exact .of_ok rfl
  | cons label labels ih =>
      rw [outputAxes]
      split
      · exact .throw (h _)
      · split
        · exact ih _
        · exact .throw (h _)

theorem jointAxes_failsBy (output : String) (operands : List (Labelled α)) :
    FailsBy P (jointAxes output operands) := by
  unfold jointAxes
  split
  · exact .throw (h _)
  · refine (collectAxes_failsBy h _ _).bind fun known _ => ?_
    exact (outputAxes_failsBy h _ _ _ _).bind fun _ _ => .of_ok rfl

end Join

end TensorLogic
