import TensorLogic.Proofs.Aggregators
import TensorLogic.Proofs.Linked
import TensorLogic.Proofs.Truths

/-!
# The operations that come for free

An interpreter gives five gates, and implication, aggregators and connectives follow
by scans over them. The interpreter of truth values computes the same operations
directly on the values at hand. Here the two are compared: whatever the elements of an
interpreter are and whatever its state does, once its elements can be read as truth
values such that the five gates are the truth functions, the operations that it gets
for free return what truth values return, on lists of any length, and refuse the same
numbers of arguments (`defaults_agree`).

The elements need not be determined by their truth values, so this is a relation
between two runs and no equation; it is the link `reading`, along which the scans are
already known to be sound.
-/

namespace TensorLogic

open Link

variable {σ α : Type}

/-- From every state inside, the computation ends as the one on truth values does: inside
again with an element that reads as its result, or for the reason that it stops for. -/
def ReadsAs (inside : σ → Prop) (value : α → Bool) (x : Run σ α) (y : Run Unit Bool) : Prop :=
  ∀ s, inside s →
    match y.value with
    | .ok b => ∃ a s', x s = .ok a s' ∧ inside s' ∧ value a = b
    | .error fault => ∃ s', x s = .error fault s'

/-- Read by `value`, the gates are the truth functions. The states inside are those that
the gates are ever run from. -/
structure Gates.Boolean (g : Gates σ α) (inside : σ → Prop) (value : α → Bool) : Prop where
  lift : ∀ b, ReadsAs inside value (g.lift b) (pure b)
  neg : ∀ a, ReadsAs inside value (g.neg a) (pure !value a)
  conj : ∀ a b, ReadsAs inside value (g.conj a b) (pure (value a && value b))
  disj : ∀ a b, ReadsAs inside value (g.disj a b) (pure (value a || value b))
  equ : ∀ a b, ReadsAs inside value (g.equ a b) (pure (value a == value b))

/-- Elements and the truth values that they read as, through any states inside. -/
def reading (inside : σ → Prop) (value : α → Bool) : Link σ Unit α Bool where
  Valid w := inside w.1
  Later v w := inside v.1 ∧ inside w.1
  Same _ a b := value a = b
  Excused _ := False
  refl h := ⟨h, h⟩
  valid h := h.2
  trans h h' := ⟨h.1, h'.2⟩
  same_later _ h := h

section Reading

variable {inside : σ → Prop} {value : α → Bool}

theorem readsAs_iff {x : Run σ α} {y : Run Unit Bool} :
    ReadsAs inside value x y ↔
      ∀ w, (reading inside value).Follows w (reading inside value).Same x y := by
  have hends : ∀ s, inside s → ((match y.value with
      | .ok b => ∃ a s', x s = .ok a s' ∧ inside s' ∧ value a = b
      | .error fault => ∃ s', x s = .error fault s') ↔
      (reading inside value).Ends (s, ()) (reading inside value).Same (x s) (y ())) := by
    intro s hs
    unfold Run.value
    cases x s <;> cases y () <;> simp [Ends, reading, hs, eq_comm]
  exact ⟨fun h w hw => (hends w.1 hw).mp (h w.1 hw), fun h s hs => (hends s hs).mpr (h (s, ()) hs)⟩

theorem forall₂_reading (w : σ × Unit) (as : List α) :
    List.Forall₂ ((reading inside value).Same w) as (as.map value) :=
  List.forall₂_map_right_iff.mpr (List.forall₂_same.mpr fun _ _ => rfl)

theorem ReadsAs.ok {x : Run σ α} {b : Bool} (h : ReadsAs inside value x (pure b)) {s : σ}
    (hs : inside s) : ∃ a s', x s = .ok a s' ∧ inside s' ∧ value a = b :=
  h s hs

variable {g : Gates σ α} (h : g.Boolean inside value)

include h

theorem Gates.Boolean.sound : g.Sound (reading inside value) where
  lift b := readsAs_iff.mp (h.lift b) _
  neg := by
    rintro w a _ rfl
    exact readsAs_iff.mp (h.neg a) w
  conj := by
    rintro w a _ c _ rfl rfl
    exact readsAs_iff.mp (h.conj a c) w
  disj := by
    rintro w a _ c _ rfl rfl
    exact readsAs_iff.mp (h.disj a c) w
  equ := by
    rintro w a _ c _ rfl rfl
    exact readsAs_iff.mp (h.equ a c) w

theorem Gates.Boolean.inStep :
    Interpreter.InStep (reading inside value) g.interpreter truthValues where
  lift _ := h.sound.lift
  neg := h.sound.neg
  conj := h.sound.conj
  disj := h.sound.disj
  equ := h.sound.equ
  imp := h.sound.imp
  all := h.sound.all
  any := h.sound.any
  one := h.sound.one
  eqs := h.sound.eqs h.sound.all

end Reading

/-! ## What two of the aggregators say -/

theorem count_map_eq_one (value : α → Bool) (as : List α) :
    (as.map value).count true = 1 ↔ ∃! k : Fin as.length, value as[k] = true := by
  have hblock : (List.finRange as.length).mapM (fun k : Fin as.length =>
      (.ok (value as[k]) : Except Fault Bool)) = .ok (as.map value) := by
    rw [mapM_eq_ok, List.forall₂_iff_get]
    simp
  simpa using count_true_eq_one (List.nodup_finRange _) hblock

theorem neighboursAgree_map (value : α → Bool) (as : List α) :
    neighboursAgree (as.map value) = true ↔ ∀ a ∈ as, ∀ b ∈ as, value a = value b := by
  cases as with
  | nil => simp [neighboursAgree]
  | cons a as =>
      rw [List.map_cons, neighboursAgree_cons, List.all_map, List.all_eq_true]
      simp only [Function.comp_apply, beq_iff_eq]
      constructor
      · intro hfirst
        have hevery : ∀ b ∈ a :: as, value a = value b := List.forall_mem_cons.mpr ⟨rfl, hfirst⟩
        exact fun b hb c hc => (hevery b hb).symm.trans (hevery c hc)
      · exact fun hall b hb => hall a List.mem_cons_self b (List.mem_cons_of_mem _ hb)

/-- Where the gates are the truth functions, all that follows from them is what the
interpreter of truth values has: the constants, implication and order, the aggregators on
lists of any length, and the connectives with any number of arguments, those included
that they refuse. `one` is true iff one element is, and `eqs` iff no two elements differ. -/
theorem defaults_agree {g : Gates σ α} {inside : σ → Prop} {value : α → Bool}
    (h : g.Boolean inside value) :
    ReadsAs inside value g.interpreter.truth truthValues.truth ∧
    ReadsAs inside value g.interpreter.falsity truthValues.falsity ∧
    (∀ a b, ReadsAs inside value (g.interpreter.imp a b) (truthValues.imp (value a) (value b))) ∧
    (∀ a b, ReadsAs inside value (g.interpreter.leq a b) (truthValues.leq (value a) (value b))) ∧
    (∀ as, ReadsAs inside value (g.interpreter.all as) (truthValues.all (as.map value))) ∧
    (∀ as, ReadsAs inside value (g.interpreter.any as) (truthValues.any (as.map value))) ∧
    (∀ as, ReadsAs inside value (g.interpreter.one as) (truthValues.one (as.map value))) ∧
    (∀ as, ReadsAs inside value (g.interpreter.eqs as) (truthValues.eqs (as.map value))) ∧
    (∀ agg as, ReadsAs inside value (g.interpreter.aggregate agg as)
      (truthValues.aggregate agg (as.map value))) ∧
    (∀ op as, ReadsAs inside value (g.interpreter.connect op as)
      (truthValues.connect op (as.map value))) ∧
    (∀ as s, inside s → ∃ a s', g.interpreter.one as s = .ok a s' ∧
      (value a = true ↔ ∃! k : Fin as.length, value as[k] = true)) ∧
    ∀ as s, inside s → ∃ a s', g.interpreter.eqs as s = .ok a s' ∧
      (value a = true ↔ ∀ b ∈ as, ∀ c ∈ as, value b = value c) := by
  have H := h.inStep
  have hagg : ∀ agg as, ReadsAs inside value (g.interpreter.aggregate agg as)
      (truthValues.aggregate agg (as.map value)) :=
    fun agg as => readsAs_iff.mpr fun w => H.aggregate agg (forall₂_reading w as)
  have himp : ∀ a b, ReadsAs inside value (g.interpreter.imp a b)
      (truthValues.imp (value a) (value b)) :=
    fun a b => readsAs_iff.mpr fun w => H.imp rfl rfl
  refine ⟨h.lift true, h.lift false, himp, himp, hagg .all, hagg .any, hagg .one, hagg .eqs,
    hagg, ?_, ?_, ?_⟩
  · exact fun op as => readsAs_iff.mpr fun w => H.connect op (forall₂_reading w as)
  · intro as s hs
    obtain ⟨a, s', hrun, -, hvalue⟩ := (hagg .one as).ok hs
    refine ⟨a, s', hrun, ?_⟩
    rw [hvalue, beq_iff_eq, count_map_eq_one]
  · intro as s hs
    obtain ⟨a, s', hrun, -, hvalue⟩ := (hagg .eqs as).ok hs
    refine ⟨a, s', hrun, ?_⟩
    rw [hvalue, neighboursAgree_map]

/-! ## An interpreter with a memory -/

/-- Truth values that know the number of the gate they come from. The state is the number of
the next gate. -/
def numbered : Gates Nat (Bool × Nat) where
  lift b n := .ok (b, n) (n + 1)
  neg a n := .ok (!a.1, n) (n + 1)
  conj a b n := .ok (a.1 && b.1, n) (n + 1)
  disj a b n := .ok (a.1 || b.1, n) (n + 1)
  equ a b n := .ok (a.1 == b.1, n) (n + 1)

/-- Gates numbered from 1 on. -/
theorem numbered_boolean : numbered.Boolean (0 < ·) Prod.fst where
  lift b n _ := ⟨(b, n), n + 1, rfl, n.succ_pos, rfl⟩
  neg a n _ := ⟨(!a.1, n), n + 1, rfl, n.succ_pos, rfl⟩
  conj a b n _ := ⟨(a.1 && b.1, n), n + 1, rfl, n.succ_pos, rfl⟩
  disj a b n _ := ⟨(a.1 || b.1, n), n + 1, rfl, n.succ_pos, rfl⟩
  equ a b n _ := ⟨(a.1 == b.1, n), n + 1, rfl, n.succ_pos, rfl⟩

/-- Of three elements two are true: the scan for exactly one takes the gates 4 to 10 and
says no, whatever gates the elements came from. -/
theorem defaults_agree_numbered : numbered.Boolean (0 < ·) Prod.fst ∧
    numbered.interpreter.one [(true, 1), (false, 2), (true, 3)] 4 = .ok (false, 10) 11 ∧
    ReadsAs (0 < ·) Prod.fst (numbered.interpreter.one [(true, 1), (false, 2), (true, 3)])
      (truthValues.one [true, false, true]) :=
  ⟨numbered_boolean, rfl, (defaults_agree numbered_boolean).2.2.2.2.2.2.1 _⟩

end TensorLogic
