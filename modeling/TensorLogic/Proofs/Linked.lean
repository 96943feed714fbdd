import TensorLogic.Interpreter.Basic
import TensorLogic.Proofs.Alike

/-!
# Interpreters in lockstep

Two interpreters are in step if each of the operations that they give themselves
follows its counterpart. What is written once for all interpreters then follows
too, starting here with connectives and aggregators. For the operations on tensors
the cells have to go together as well: interpreters are linked if they are in step
and buffers that fit on the left fit on the right.
-/

namespace TensorLogic

open Tensor Link

variable {σ τ α β : Type}

/-- Tensors over one shape whose cells stand for the same things. -/
abbrev Link.AlikeAt (L : Link σ τ α β) (w : σ × τ) : Tensor α → Tensor β → Prop :=
  Alike (L.Same w)

theorem Link.AlikeAt.later {L : Link σ τ α β} {v w : σ × τ} {t : Tensor α} {u : Tensor β}
    (h : L.AlikeAt v t u) (hw : L.Later v w) : L.AlikeAt w t u :=
  persists_same.alike hw h

/-- Each operation of `I` follows the one of `J`. -/
structure Interpreter.InStep (L : Link σ τ α β) (I : Interpreter σ α)
    (J : Interpreter τ β) : Prop where
  lift : ∀ w value, L.Follows w L.Same (I.lift value) (J.lift value)
  neg : ∀ {w a b}, L.Same w a b → L.Follows w L.Same (I.neg a) (J.neg b)
  conj : ∀ {w a b c d}, L.Same w a b → L.Same w c d →
    L.Follows w L.Same (I.conj a c) (J.conj b d)
  disj : ∀ {w a b c d}, L.Same w a b → L.Same w c d →
    L.Follows w L.Same (I.disj a c) (J.disj b d)
  equ : ∀ {w a b c d}, L.Same w a b → L.Same w c d →
    L.Follows w L.Same (I.equ a c) (J.equ b d)
  imp : ∀ {w a b c d}, L.Same w a b → L.Same w c d →
    L.Follows w L.Same (I.imp a c) (J.imp b d)
  all : ∀ {w as bs}, List.Forall₂ (L.Same w) as bs →
    L.Follows w L.Same (I.all as) (J.all bs)
  any : ∀ {w as bs}, List.Forall₂ (L.Same w) as bs →
    L.Follows w L.Same (I.any as) (J.any bs)
  one : ∀ {w as bs}, List.Forall₂ (L.Same w) as bs →
    L.Follows w L.Same (I.one as) (J.one bs)
  eqs : ∀ {w as bs}, List.Forall₂ (L.Same w) as bs →
    L.Follows w L.Same (I.eqs as) (J.eqs bs)

/-- In step, over cells that go together. -/
structure Interpreter.Linked [Cell α] [Cell β] (L : Link σ τ α β) (I : Interpreter σ α)
    (J : Interpreter τ β) : Prop extends Interpreter.InStep L I J where
  wider : L.Wider α β

namespace Interpreter.InStep

variable {L : Link σ τ α β} {I : Interpreter σ α} {J : Interpreter τ β}
  (H : InStep L I J) {w : σ × τ}

include H

theorem aggregate (agg : Aggregate) {as : List α} {bs : List β}
    (h : List.Forall₂ (L.Same w) as bs) :
    L.Follows w L.Same (I.aggregate agg as) (J.aggregate agg bs) := by
  cases agg with
  | all => exact H.all h
  | any => exact H.any h
  | one => exact H.one h
  | eqs => exact H.eqs h

theorem connect (op : Connective) {as : List α} {bs : List β}
    (h : List.Forall₂ (L.Same w) as bs) :
    L.Follows w L.Same (I.connect op as) (J.connect op bs) := by
  cases h with
  | nil => cases op <;> exact Follows.throw _
  | cons hab hrest =>
      cases hrest with
      | nil =>
          cases op with
          | id => exact Follows.pure hab
          | not => exact H.neg hab
          | and => exact H.all (.cons hab .nil)
          | or => exact H.any (.cons hab .nil)
          | imp | equ | leq => exact Follows.throw _
      | cons hcd hrest =>
          have hall := List.Forall₂.cons hab (.cons hcd hrest)
          cases op with
          | and => exact H.all hall
          | or => exact H.any hall
          | id | not =>
              simp only [Interpreter.connect, hall.length_eq]
              exact Follows.throw _
          | imp | equ | leq =>
              cases hrest with
              | nil => first | exact H.imp hab hcd | exact H.equ hab hcd
              | cons =>
                  simp only [Interpreter.connect, hall.length_eq]
                  exact Follows.throw _

theorem excusing (extra : Fault → Prop) : InStep (L.excusing extra) I J where
  lift w value := (H.lift w value).excusing extra
  neg hab := (H.neg hab).excusing extra
  conj hab hcd := (H.conj hab hcd).excusing extra
  disj hab hcd := (H.disj hab hcd).excusing extra
  equ hab hcd := (H.equ hab hcd).excusing extra
  imp hab hcd := (H.imp hab hcd).excusing extra
  all h := (H.all h).excusing extra
  any h := (H.any h).excusing extra
  one h := (H.one h).excusing extra
  eqs h := (H.eqs h).excusing extra

/-- Cells that take more room on the left are one more reason to fail there. -/
theorem linked [Cell α] [Cell β] (hwidth : Cell.width β ≤ Cell.width α) :
    Linked (L.excusing (Size.Lacks (Cell.width β) (Cell.width α))) I J where
  toInStep := H.excusing _
  wider := ⟨hwidth, fun entries hbetween => .inr ⟨entries, hbetween, rfl⟩⟩

theorem constant (shape : Shape) (value : Bool) :
    L.Follows w L.AlikeAt (I.constant shape value) (J.constant shape value) :=
  (H.lift w value).bind fun _ _ _ _ hab => Follows.pure (Alike.constant hab shape)

end Interpreter.InStep

/-! ## Operations on tensors -/

namespace Interpreter.Linked

variable [Cell α] [Cell β] {L : Link σ τ α β} {I : Interpreter σ α} {J : Interpreter τ β}
  (H : Linked L I J) {w : σ × τ} {t t' : Tensor α} {u u' : Tensor β}

include H

theorem liftTensor (t : Tensor Bool) :
    L.Follows w L.AlikeAt (I.liftTensor t) (J.liftTensor t) := by
  rw [Interpreter.liftTensor, Interpreter.liftTensor, map_eq, map_eq]
  refine Follows.fill persists_same fun v _ index => Follows.grown H.wider ?_
  exact Follows.lift_bind _ fun value _ => H.lift v value

theorem map (op : Connective) (h : L.AlikeAt w t u) :
    L.Follows w L.AlikeAt (I.map op t) (J.map op u) :=
  Follows.map H.wider persists_same persists_same h fun _ _ _ _ hab =>
    H.connect op (.cons hab .nil)

theorem map2 (op : Connective) (h : L.AlikeAt w t u) (h' : L.AlikeAt w t' u') :
    L.Follows w L.AlikeAt (I.map2 op t t') (J.map2 op u u') :=
  Follows.map2 H.wider persists_same persists_same persists_same h h' fun _ _ _ _ _ _ hab hcd =>
    H.connect op (.cons hab (.cons hcd .nil))

theorem fold (agg : Aggregate) (axes : Nat) (h : L.AlikeAt w t u) :
    L.Follows w L.AlikeAt (I.fold agg axes t) (J.fold agg axes u) :=
  Follows.fold H.wider H.wider persists_same persists_same h axes fun _ _ _ _ => H.aggregate agg

theorem reduce (agg : Aggregate) (output : String) (op : Connective)
    {as : List (Labelled α)} {bs : List (Labelled β)}
    (h : List.Forall₂ (AlikeOperands (L.Same w)) as bs) :
    L.Follows w L.AlikeAt (I.reduce agg output op as) (J.reduce agg output op bs) :=
  Follows.reduce H.wider persists_same persists_same h output
    (fun _ _ _ _ => H.connect op) fun _ _ _ _ => H.aggregate agg

end Interpreter.Linked

end TensorLogic
