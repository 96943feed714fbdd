import TensorLogic.Proofs.Linked
import TensorLogic.Relation.Binary
import TensorLogic.Relation.Essential
import TensorLogic.Relation.Galois
import TensorLogic.Relation.Monoid
import TensorLogic.Relation.Operation

/-!
# Predicates in lockstep

The predicates on relations and operations, under two linked interpreters. They
check shapes before they touch a cell, and tensors that are alike have one shape,
so both sides refuse the same arguments. After that a predicate is a chain of
contractions, and each link of the chain follows.
-/

namespace TensorLogic

open Tensor Link

variable {σ τ α β : Type}

namespace Relation

variable {L : Link σ τ α β} {w : σ × τ} {t : Tensor α} {u : Tensor β}

theorem follows_toScalar (h : L.AlikeAt w t u) :
    L.Follows w L.Same (liftM t.toScalar) (liftM u.toScalar) :=
  Follows.lift h.toScalar

/-- A check of the shape, in front of what both sides go on with. -/
theorem follows_requireExtent {R : σ × τ → α → β → Prop} (h : L.AlikeAt w t u)
    (subject : Subject) (rank n : Nat) {x : Run σ α} {y : Run τ β}
    (hxy : L.Follows w R x y) :
    L.Follows w R (do let _ : Unit ← requireExtent subject t rank n; x)
      (do let _ : Unit ← requireExtent subject u rank n; y) := by
  rw [requireExtent, requireExtent, ← h.shape_eq]
  exact Follows.lift_bind _ fun _ _ => hxy

theorem follows_requireCube {R : σ × τ → α → β → Prop} (h : L.AlikeAt w t u)
    (subject : Subject) (rank : Nat) {x : Run σ α} {y : Run τ β}
    (hxy : L.Follows w R x y) :
    L.Follows w R (do let _ : Unit ← requireCube subject t rank; x)
      (do let _ : Unit ← requireCube subject u rank; y) := by
  rw [requireCube, requireCube, ← h.shape_eq]
  exact follows_requireExtent h subject rank _ hxy

variable [Cell α] [Cell β] {I : Interpreter σ α} {J : Interpreter τ β}
  (H : Interpreter.Linked L I J)

include H

theorem follows_isReflexive (h : L.AlikeAt w t u) :
    L.Follows w L.Same (isReflexive I t) (isReflexive J u) := by
  refine follows_requireCube h _ _ ?_
  exact (H.reduce _ _ _ (.cons ⟨rfl, h⟩ .nil)).bind fun _ _ _ _ => follows_toScalar

theorem follows_isSymmetric (h : L.AlikeAt w t u) :
    L.Follows w L.Same (isSymmetric I t) (isSymmetric J u) := by
  refine follows_requireCube h _ _ ?_
  exact (H.reduce _ _ _ (.cons ⟨rfl, h⟩ (.cons ⟨rfl, h⟩ .nil))).bind
    fun _ _ _ _ => follows_toScalar

/-- The end of most predicates: one relation is contained in another. -/
theorem follows_contained {t' : Tensor α} {u' : Tensor β} (op : Connective) (axes : Nat)
    (h : L.AlikeAt w t u) (h' : L.AlikeAt w t' u') :
    L.Follows w L.Same
      (do
        let contained ← I.map2 op t t'
        let all ← I.fold .all axes contained
        all.toScalar)
      (do
        let contained ← J.map2 op u u'
        let all ← J.fold .all axes contained
        all.toScalar) := by
  refine (H.map2 op h h').bind fun v a b _ hab => ?_
  exact (H.fold .all axes hab).bind fun _ _ _ _ => follows_toScalar

theorem follows_isTransitive (h : L.AlikeAt w t u) :
    L.Follows w L.Same (isTransitive I t) (isTransitive J u) := by
  refine follows_requireCube h _ _ ?_
  refine (H.reduce _ _ _ (.cons ⟨rfl, h⟩ (.cons ⟨rfl, h⟩ .nil))).bind fun v a b hv hab => ?_
  exact follows_contained H .leq 2 hab (h.later hv)

theorem follows_isEquivalence (h : L.AlikeAt w t u) :
    L.Follows w L.Same (isEquivalence I t) (isEquivalence J u) := by
  refine (follows_isReflexive H h).bind fun v a b hv hab => ?_
  have h := h.later hv
  refine (follows_isSymmetric H h).bind fun v' c d hv' hcd => ?_
  have h := h.later hv'
  refine (follows_isTransitive H h).bind fun v'' e f hv'' hef => ?_
  exact H.all (.cons (L.same_later (L.trans hv' hv'') hab)
    (.cons (L.same_later hv'' hcd) (.cons hef .nil)))

theorem follows_shadows (h : L.AlikeAt w t u) (labels : String) (axes : List Nat) :
    L.Follows w (fun v => List.Forall₂ (AlikeOperands (L.Same v)))
      (shadows I t labels axes) (shadows J u labels axes) := by
  induction axes generalizing w with
  | nil => exact Follows.pure .nil
  | cons axis axes ih =>
      refine (H.reduce _ _ _ (.cons ⟨rfl, h⟩ .nil)).bind fun v a b hv hab => ?_
      refine (ih (h.later hv)).bind fun v' as bs hv' hall => ?_
      exact Follows.pure (.cons ⟨rfl, hab.later hv'⟩ hall)

theorem follows_isEssential (h : L.AlikeAt w t u) :
    L.Follows w L.Same (isEssential I t) (isEssential J u) := by
  rw [isEssential, isEssential, Tensor.rank, Tensor.rank, ← h.shape_eq]
  refine Follows.lift_bind _ fun labels _ => ?_
  refine (follows_shadows H h labels _).bind fun v as bs hv hall => ?_
  refine (H.map .not (h.later hv)).bind fun v' a b hv' hab => ?_
  refine (H.reduce _ _ _ (List.rel_append ?_ (.cons ⟨rfl, hab⟩ .nil))).bind
    fun _ _ _ _ => follows_toScalar
  exact hall.imp fun _ _ hcd => ⟨hcd.1, Link.AlikeAt.later hcd.2 hv'⟩

theorem follows_ignoredArguments (h : L.AlikeAt w t u) (labels : String) (axes : List Nat) :
    L.Follows w (fun v => List.Forall₂ (L.Same v))
      (ignoredArguments I t labels axes) (ignoredArguments J u labels axes) := by
  induction axes generalizing w with
  | nil => exact Follows.pure .nil
  | cons axis axes ih =>
      refine (H.reduce _ _ _ (.cons ⟨rfl, h⟩ .nil)).bind fun v a b hv hab => ?_
      have h := h.later hv
      refine (H.fold _ _ hab).bind fun v c d hv hcd => ?_
      have h := h.later hv
      refine (follows_toScalar hcd).bind fun v e f hv hef => ?_
      refine (ih (h.later hv)).bind fun v as bs hv hall => ?_
      exact Follows.pure (.cons (L.same_later hv hef) hall)

theorem follows_isEssentialOperation (h : L.AlikeAt w t u) :
    L.Follows w L.Same (isEssentialOperation I t) (isEssentialOperation J u) := by
  rw [isEssentialOperation, isEssentialOperation, Tensor.rank, Tensor.rank, ← h.shape_eq]
  refine Follows.lift_bind _ fun labels _ => ?_
  refine (follows_ignoredArguments H h labels _).bind fun v as bs _ hall => ?_
  exact (H.any hall).bind fun _ _ _ _ => H.neg

theorem follows_isFunction (h : L.AlikeAt w t u) :
    L.Follows w L.Same (isFunction I t) (isFunction J u) := by
  rw [isFunction, isFunction, Tensor.rank, Tensor.rank, ← h.shape_eq]
  refine Follows.lift_bind _ fun labels _ => ?_
  refine (H.reduce _ _ _ (.cons ⟨rfl, h⟩ .nil)).bind fun v a b _ hab => ?_
  exact (H.fold _ _ hab).bind fun _ _ _ _ => follows_toScalar

theorem follows_holdAlong (h : L.AlikeAt w t u) (labellings : List String) :
    L.Follows w (fun v => List.Forall₂ (L.Same v))
      (holdAlong I t labellings) (holdAlong J u labellings) := by
  induction labellings generalizing w with
  | nil => exact Follows.pure .nil
  | cons labels rest ih =>
      refine (H.reduce _ _ _ (.cons ⟨rfl, h⟩ .nil)).bind fun v a b hv hab => ?_
      have h := h.later hv
      refine (follows_toScalar hab).bind fun v c d hv hcd => ?_
      refine (ih (h.later hv)).bind fun v as bs hv hall => ?_
      exact Follows.pure (.cons (L.same_later hv hcd) hall)

theorem follows_isMajority (h : L.AlikeAt w t u) :
    L.Follows w L.Same (isMajority I t) (isMajority J u) := by
  refine follows_requireCube h _ _ ?_
  exact (follows_holdAlong H h _).bind fun _ _ _ _ => H.all

theorem follows_isMaltsev (h : L.AlikeAt w t u) :
    L.Follows w L.Same (isMaltsev I t) (isMaltsev J u) := by
  refine follows_requireCube h _ _ ?_
  exact (follows_holdAlong H h _).bind fun _ _ _ _ => H.all

theorem follows_isMonoid (h : L.AlikeAt w t u) :
    L.Follows w L.Same (isMonoid I t) (isMonoid J u) := by
  rw [isMonoid, isMonoid, monoidSize, monoidSize, ← h.shape_eq]
  refine Follows.lift_bind _ fun _ _ => ?_
  refine (H.reduce _ _ _ (.cons ⟨rfl, h⟩ (.cons ⟨rfl, h⟩ .nil))).bind fun v a b hv hab => ?_
  refine (H.reduce _ _ _ (.cons ⟨rfl, hab⟩ (.cons ⟨rfl, h.later hv⟩ .nil))).bind
    fun v' c d _ hcd => ?_
  exact follows_isFunction H hcd

variable {t' : Tensor α} {u' : Tensor β}

theorem follows_image (h : L.AlikeAt w t u) (h' : L.AlikeAt w t' u') :
    L.Follows w L.AlikeAt (image I t t') (image J u u') := by
  rw [image, image, Tensor.rank, Tensor.rank, ← h.shape_eq]
  split
  · exact H.reduce _ _ _ (.cons ⟨rfl, h⟩ (.cons ⟨rfl, h'⟩ .nil))
  · refine (H.reduce _ _ _ (.cons ⟨rfl, h⟩ (.cons ⟨rfl, h'⟩ .nil))).bind
      fun v a b hv hab => ?_
    exact H.reduce _ _ _ (.cons ⟨rfl, hab⟩ (.cons ⟨rfl, h'.later hv⟩ .nil))
  · refine (H.reduce _ _ _ (.cons ⟨rfl, h⟩ (.cons ⟨rfl, h'⟩ .nil))).bind
      fun v a b hv hab => ?_
    have h' := h'.later hv
    refine (H.reduce _ _ _ (.cons ⟨rfl, hab⟩ (.cons ⟨rfl, h'⟩ .nil))).bind
      fun v c d hv hcd => ?_
    exact H.reduce _ _ _ (.cons ⟨rfl, hcd⟩ (.cons ⟨rfl, h'.later hv⟩ .nil))
  · exact Follows.throw _

theorem follows_isCompatible (h : L.AlikeAt w t u) (h' : L.AlikeAt w t' u') :
    L.Follows w L.Same (isCompatible I t t') (isCompatible J u u') := by
  rw [isCompatible, isCompatible, monoidSize, monoidSize, Tensor.rank, Tensor.rank,
    ← h.shape_eq, ← h'.shape_eq]
  refine Follows.lift_bind _ fun n _ => ?_
  refine follows_requireExtent h _ _ _ ?_
  refine (follows_image H h h').bind fun v a b hv hab => ?_
  exact follows_contained H .leq _ hab (h.later hv)

theorem follows_composite (h : L.AlikeAt w t u) (h' : L.AlikeAt w t' u') :
    L.Follows w L.AlikeAt (composite I t t') (composite J u u') := by
  rw [composite, composite, Tensor.rank, Tensor.rank, ← h.shape_eq]
  split
  · refine (H.reduce _ _ _ (.cons ⟨rfl, h⟩ (.cons ⟨rfl, h'⟩ .nil))).bind
      fun v a b hv hab => ?_
    have h' := h'.later hv
    refine (H.reduce _ _ _ (.cons ⟨rfl, hab⟩ (.cons ⟨rfl, h'⟩ .nil))).bind
      fun v c d hv hcd => ?_
    exact H.reduce _ _ _ (.cons ⟨rfl, hcd⟩ (.cons ⟨rfl, h'.later hv⟩ .nil))
  · refine (H.reduce _ _ _ (.cons ⟨rfl, h⟩ (.cons ⟨rfl, h'⟩ .nil))).bind
      fun v a b hv hab => ?_
    have h' := h'.later hv
    refine (H.reduce _ _ _ (.cons ⟨rfl, hab⟩ (.cons ⟨rfl, h'⟩ .nil))).bind
      fun v c d hv hcd => ?_
    have h' := h'.later hv
    refine (H.reduce _ _ _ (.cons ⟨rfl, hcd⟩ (.cons ⟨rfl, h'⟩ .nil))).bind
      fun v e f hv hef => ?_
    exact H.reduce _ _ _ (.cons ⟨rfl, hef⟩ (.cons ⟨rfl, h'.later hv⟩ .nil))
  · exact Follows.throw _
  · exact Follows.throw _

theorem follows_isStabilizer (h : L.AlikeAt w t u) (h' : L.AlikeAt w t' u') :
    L.Follows w L.Same (isStabilizer I t t') (isStabilizer J u u') := by
  rw [isStabilizer, isStabilizer, monoidSize, monoidSize, Tensor.rank, Tensor.rank,
    ← h.shape_eq, ← h'.shape_eq]
  refine Follows.lift_bind _ fun n _ => ?_
  refine follows_requireExtent h _ _ _ ?_
  refine (follows_composite H h h').bind fun v a b _ hab => ?_
  refine (H.fold .one 1 hab).bind fun v c d _ hcd => ?_
  rw [Tensor.rank, Tensor.rank, ← hcd.shape_eq]
  exact (H.fold .all _ hcd).bind fun _ _ _ _ => follows_toScalar

theorem follows_isPreserved (h : L.AlikeAt w t u) (h' : L.AlikeAt w t' u') :
    L.Follows w L.Same (isPreserved I t t') (isPreserved J u u') := by
  rw [isPreserved, isPreserved, Tensor.rank, Tensor.rank, ← h.shape_eq, ← h'.shape_eq]
  refine follows_requireCube h' _ _ ?_
  dsimp only
  split
  · exact Follows.throw _
  · refine follows_requireExtent h _ _ _ ?_
    have hgraphs : ∀ labels : List String, List.Forall₂ (AlikeOperands (L.Same w))
        (labels.map t'.named) (labels.map u'.named) := by
      intro labels
      rw [List.forall₂_map_left_iff, List.forall₂_map_right_iff]
      exact List.forall₂_same.mpr fun _ _ => ⟨rfl, h'⟩
    refine (H.reduce _ _ _ (.cons ⟨rfl, h⟩ (.cons ⟨rfl, h⟩ (hgraphs _)))).bind
      fun v a b hv hab => ?_
    exact follows_contained H .leq _ hab (h.later hv)

theorem follows_isClosedSubset (h : L.AlikeAt w t u) (h' : L.AlikeAt w t' u') :
    L.Follows w L.Same (isClosedSubset I t t') (isClosedSubset J u u') := by
  rw [isClosedSubset, isClosedSubset, Tensor.rank, Tensor.rank, ← h'.shape_eq]
  split
  · exact Follows.throw _
  · refine follows_requireExtent h _ _ _ ?_
    refine (H.reduce _ _ _ (.cons ⟨rfl, h⟩ (.cons ⟨rfl, h'⟩ .nil))).bind
      fun v a b hv hab => ?_
    have h := h.later hv
    have h' := h'.later hv
    refine (H.reduce _ _ _ (.cons ⟨rfl, hab⟩ (.cons ⟨rfl, h'⟩ .nil))).bind
      fun v c d hv hcd => ?_
    exact follows_contained H .equ 1 (h.later hv) hcd

end Relation

end TensorLogic
