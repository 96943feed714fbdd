import TensorLogic.Formula
import TensorLogic.Proofs.Names
import TensorLogic.Proofs.Predicates

/-!
# The operations of formulas in lockstep

What the operations of a formula do under two linked interpreters, with bindings
whose tensors are alike: the two computations follow each other. A reshape that
names a source axis twice is left out (`Formula.linear`), since what it reads
depends on the storage behind it.
-/

namespace TensorLogic

open Link

variable {σ τ α β : Type}

namespace Formula

mutual

/-- Every reshape names each source axis at most once. -/
def linear : Formula → Bool
  | reshape _ axes arg => decide (Axis.sources axes).Nodup && linear arg
  | map _ arg | fold _ _ arg | slice _ arg | id arg | not arg | property _ arg => linear arg
  | map2 _ left right | dyad _ left right | pairing _ left right =>
      linear left && linear right
  | given _ value body => linear value && linear body
  | reduce _ _ _ _ args | stack args | connect _ args | aggregate _ args => linearAll args
  | var _ | lift _ | constant _ _ | truth | falsity | lifted _ | broken _ => true

def linearAll : List Formula → Bool
  | [] => true
  | arg :: args => linear arg && linearAll args

end

/-- One of the slices of a tensor. -/
def pick (k : Nat) (t : Tensor α) : Run σ (Tensor α) := do
  let parts : List (Tensor α) ← t.unconcat
  match parts[k]? with
  | some part => pure part
  | none => trap .outOfBounds

end Formula

/-- The same names, bound to tensors that are alike. -/
def Link.AlikeBindings (L : Link σ τ α β) (w : σ × τ) (env : Bindings α)
    (env' : Bindings β) : Prop :=
  ∀ name, Option.Rel (L.AlikeAt w) (env.find? name) (env'.find? name)

namespace Link.AlikeBindings

variable {L : Link σ τ α β} {v w : σ × τ} {env : Bindings α} {env' : Bindings β}

theorem later (h : L.AlikeBindings v env env') (hw : L.Later v w) :
    L.AlikeBindings w env env' := by
  intro name
  match env.find? name, env'.find? name, h name with
  | _, _, .none => exact .none
  | _, _, .some htu => exact .some (AlikeAt.later htu hw)

theorem insert (h : L.AlikeBindings w env env') (name : String) {t : Tensor α}
    {u : Tensor β} (htu : L.AlikeAt w t u) :
    L.AlikeBindings w (env.insert name t) (env'.insert name u) := by
  intro other
  rw [NameMap.find?_insert, NameMap.find?_insert]
  split
  · exact .some htu
  · exact h other

theorem get (h : L.AlikeBindings w env env') (name : String) :
    Agree (L.AlikeAt w) (env.get name) (env'.get name) := by
  rw [Bindings.get, Bindings.get]
  match env.find? name, env'.find? name, h name with
  | _, _, .none => exact rfl
  | _, _, .some htu => exact htu

end Link.AlikeBindings

namespace Interpreter.Linked

variable {L : Link σ τ α β} {I : Interpreter σ α} {J : Interpreter τ β}

theorem scalar {w : σ × τ} {x : Run σ α} {y : Run τ β} (h : L.Follows w L.Same x y) :
    L.Follows w L.AlikeAt (x >>= fun a => pure (Tensor.scalar a))
      (y >>= fun b => pure (Tensor.scalar b)) :=
  h.bind fun _ _ _ _ hab => Follows.pure (Tensor.Alike.constant hab [])

/-- Both sides have one number of slices, so both have slice `k` or neither has. -/
theorem follows_pick {w : σ × τ} {t : Tensor α} {u : Tensor β} (k : Nat)
    (htu : L.AlikeAt w t u) :
    L.Follows w L.AlikeAt (Formula.pick k t) (Formula.pick k u) := by
  refine (Follows.lift (Q := fun v => List.Forall₂ (L.AlikeAt v)) htu.unconcat).bind
    fun v' ts us _ h => ?_
  by_cases hk : k < ts.length
  · have hk' : k < us.length := h.length_eq ▸ hk
    rw [List.getElem?_eq_getElem hk, List.getElem?_eq_getElem hk']
    exact Follows.pure ((List.forall₂_iff_get.mp h).2 k hk hk')
  · have hk' : ¬ k < us.length := h.length_eq ▸ hk
    rw [List.getElem?_eq_none (by omega), List.getElem?_eq_none (by omega)]
    exact Follows.throw _

/-- Labels are attached to operands in order, as far as there are labels. -/
theorem named {w : σ × τ} {ts : List (Tensor α)} {us : List (Tensor β)}
    (h : List.Forall₂ (L.AlikeAt w) ts us) (labels : List String) :
    List.Forall₂ (AlikeOperands (L.Same w)) (List.zipWith Tensor.named ts labels)
      (List.zipWith Tensor.named us labels) := by
  induction h generalizing labels with
  | nil => exact .nil
  | cons htu _ ih =>
      cases labels with
      | nil => exact .nil
      | cons label labels => exact .cons ⟨rfl, htu⟩ (ih labels)

variable [Cell α] [Cell β]

theorem holds (H : Linked L I J) {w : σ × τ} {t : Tensor α} {u : Tensor β}
    (which : Property) (h : L.AlikeAt w t u) :
    L.Follows w L.Same (Formula.holds I which t) (Formula.holds J which u) := by
  cases which with
  | reflexive => exact Relation.follows_isReflexive H h
  | symmetric => exact Relation.follows_isSymmetric H h
  | transitive => exact Relation.follows_isTransitive H h
  | equivalence => exact Relation.follows_isEquivalence H h
  | essential => exact Relation.follows_isEssential H h
  | function => exact Relation.follows_isFunction H h
  | majority => exact Relation.follows_isMajority H h
  | maltsev => exact Relation.follows_isMaltsev H h
  | essentialOperation => exact Relation.follows_isEssentialOperation H h
  | monoid => exact Relation.follows_isMonoid H h

theorem holdsOf (H : Linked L I J) {w : σ × τ} {t t' : Tensor α} {u u' : Tensor β}
    (which : Pairing) (h : L.AlikeAt w t u) (h' : L.AlikeAt w t' u') :
    L.Follows w L.Same (Formula.holdsOf I which t t') (Formula.holdsOf J which u u') := by
  cases which with
  | compatible => exact Relation.follows_isCompatible H h h'
  | stabilizer => exact Relation.follows_isStabilizer H h h'
  | preserved => exact Relation.follows_isPreserved H h h'
  | closedSubset => exact Relation.follows_isClosedSubset H h h'

theorem combine (H : Linked L I J) {w : σ × τ} {a c : α} {b d : β} (op : Dyad)
    (h : L.Same w a b) (h' : L.Same w c d) :
    L.Follows w L.Same (Formula.combine I op a c) (Formula.combine J op b d) := by
  cases op with
  | and => exact H.conj h h'
  | or => exact H.disj h h'
  | imp | leq => exact H.imp h h'
  | equ => exact H.equ h h'

end Interpreter.Linked

end TensorLogic
