import TensorLogic.Proofs.Names
import TensorLogic.Proofs.Scopes
import TensorLogic.Proofs.Evaluation

/-!
# Formulas in scope

A predicate is a chain of contractions and folds, a formula a tree of operations, and each
of them computes tensors over literals of the session from tensors over literals of the
session. So the evaluation of every formula is in scope (`InScope.eval`), whatever it is
made of, as soon as the tensors that its variables are bound to can be read for literals of
the session only.
-/

namespace TensorLogic

open Cnf Faithful Tensor

variable {σ : Type} [Session σ] [Faithful σ] {linear : Prop} {n : Nat}

namespace Tensor.Legible

variable {t u : Tensor Literal}

theorem named (ht : t.Legible linear n) (labels : String) :
    ∀ operand ∈ [t.named labels], operand.tensor.Legible linear n :=
  List.forall_mem_singleton.mpr ht

theorem named_cons (ht : t.Legible linear n) (labels : String)
    {operands : List (Labelled Literal)}
    (h : ∀ operand ∈ operands, operand.tensor.Legible linear n) :
    ∀ operand ∈ t.named labels :: operands, operand.tensor.Legible linear n :=
  List.forall_mem_cons.mpr ⟨ht, h⟩

end Tensor.Legible

/-! ## Predicates -/

namespace Relation

variable {t u : Tensor Literal}

theorem scoped_toScalar (ht : t.Legible linear n) :
    ScopedCell (σ := σ) n (liftM t.toScalar) (liftM t.toScalar) :=
  Scoped.lift fun _ => ht.toScalar

variable {I J : Interpreter σ Literal} (H : Interpreter.InScope I J)

include H

theorem scoped_isReflexive (ht : t.Legible linear n) :
    ScopedCell n (isReflexive I t) (isReflexive J t) := by
  refine Scoped.lift_bind _ fun _ _ => ?_
  exact (H.reduce _ _ _ (ht.named _)).bind fun _ _ _ => scoped_toScalar

theorem scoped_isSymmetric (ht : t.Legible linear n) :
    ScopedCell n (isSymmetric I t) (isSymmetric J t) := by
  refine Scoped.lift_bind _ fun _ _ => ?_
  exact (H.reduce _ _ _ (ht.named_cons _ (ht.named _))).bind fun _ _ _ => scoped_toScalar

/-- The end of most predicates: one relation is contained in another. -/
theorem scoped_contained (op : Connective) (axes : Nat) (ht : t.Legible linear n)
    (hu : u.Legible linear n) :
    ScopedCell n
      (do
        let contained ← I.map2 op t u
        let all ← I.fold .all axes contained
        all.toScalar)
      (do
        let contained ← J.map2 op t u
        let all ← J.fold .all axes contained
        all.toScalar) := by
  refine (H.map2 op ht hu).bind fun m contained _ hcontained => ?_
  exact (H.fold .all axes hcontained).bind fun _ _ _ => scoped_toScalar

theorem scoped_isTransitive (ht : t.Legible linear n) :
    ScopedCell n (isTransitive I t) (isTransitive J t) := by
  refine Scoped.lift_bind _ fun _ _ => ?_
  refine (H.reduce _ _ _ (ht.named_cons _ (ht.named _))).bind fun m composed hm hcomposed => ?_
  exact scoped_contained H .leq 2 hcomposed (ht.mono hm)

theorem scoped_isEquivalence (ht : t.Legible linear n) :
    ScopedCell n (isEquivalence I t) (isEquivalence J t) := by
  refine (scoped_isReflexive H ht).bind fun m reflexive hm hreflexive => ?_
  have ht := ht.mono hm
  refine (scoped_isSymmetric H ht).bind fun m' symmetric hm' hsymmetric => ?_
  refine (scoped_isTransitive H (ht.mono hm')).bind fun m'' transitive hm'' htransitive => ?_
  refine H.all m'' m'' (Nat.le_refl m'') _ ?_
  simpa using ⟨owns_mono (Nat.le_trans hm' hm'') hreflexive, owns_mono hm'' hsymmetric,
    htransitive⟩

theorem scoped_shadows (ht : t.Legible linear n) (labels : String) (axes : List Nat) :
    Scoped n (fun m parts => ∀ part ∈ parts, part.tensor.Legible linear m)
      (shadows I t labels axes) (shadows J t labels axes) := by
  induction axes generalizing n with
  | nil => exact Scoped.pure (by simp)
  | cons axis axes ih =>
      refine (H.reduce _ _ _ (ht.named _)).bind fun m shadow hm hshadow => ?_
      refine (ih (ht.mono hm)).bind fun m' others hm' hothers => ?_
      exact Scoped.pure ((hshadow.mono hm').named_cons _ hothers)

theorem scoped_isEssential (ht : t.Legible linear n) :
    ScopedCell n (isEssential I t) (isEssential J t) := by
  refine Scoped.lift_bind _ fun labels _ => ?_
  refine (scoped_shadows H ht labels _).bind fun m parts hm hparts => ?_
  refine (H.map .not (ht.mono hm)).bind fun m' outside hm' houtside => ?_
  have hboth : ∀ operand ∈ parts ++ [outside.named labels], operand.tensor.Legible linear m' :=
    List.forall_mem_append.mpr
      ⟨fun part hpart => (hparts part hpart).mono hm', houtside.named labels⟩
  exact (H.reduce _ _ _ hboth).bind fun _ _ _ => scoped_toScalar

theorem scoped_ignoredArguments (ht : t.Legible linear n) (labels : String) (axes : List Nat) :
    Scoped n (fun m ls => ∀ l ∈ ls, owns m l) (ignoredArguments I t labels axes)
      (ignoredArguments J t labels axes) := by
  induction axes generalizing n with
  | nil => exact Scoped.pure (by simp)
  | cons axis axes ih =>
      refine (H.reduce _ _ _ (ht.named _)).bind fun m constant hm hconstant => ?_
      have ht := ht.mono hm
      refine (H.fold _ _ hconstant).bind fun m all hm hall => ?_
      have ht := ht.mono hm
      refine (scoped_toScalar hall).bind fun m ignored hm hignored => ?_
      refine (ih (ht.mono hm)).bind fun m' others hm' hothers => ?_
      exact Scoped.pure (List.forall_mem_cons.mpr ⟨owns_mono hm' hignored, hothers⟩)

theorem scoped_isEssentialOperation (ht : t.Legible linear n) :
    ScopedCell n (isEssentialOperation I t) (isEssentialOperation J t) := by
  refine Scoped.lift_bind _ fun labels _ => ?_
  refine (scoped_ignoredArguments H ht labels _).bind fun m ignored _ hignored => ?_
  exact (H.any m m (Nat.le_refl m) ignored hignored).bind fun _ _ _ => H.neg

theorem scoped_isFunction (ht : t.Legible linear n) :
    ScopedCell n (isFunction I t) (isFunction J t) := by
  refine Scoped.lift_bind _ fun labels _ => ?_
  refine (H.reduce _ _ _ (ht.named _)).bind fun m unique _ hunique => ?_
  exact (H.fold _ _ hunique).bind fun _ _ _ => scoped_toScalar

theorem scoped_holdAlong (ht : t.Legible linear n) (labellings : List String) :
    Scoped n (fun m ls => ∀ l ∈ ls, owns m l) (holdAlong I t labellings)
      (holdAlong J t labellings) := by
  induction labellings generalizing n with
  | nil => exact Scoped.pure (by simp)
  | cons labels rest ih =>
      refine (H.reduce _ _ _ (ht.named _)).bind fun m all hm hall => ?_
      have ht := ht.mono hm
      refine (scoped_toScalar hall).bind fun m holds hm hholds => ?_
      refine (ih (ht.mono hm)).bind fun m' others hm' hothers => ?_
      exact Scoped.pure (List.forall_mem_cons.mpr ⟨owns_mono hm' hholds, hothers⟩)

theorem scoped_isMajority (ht : t.Legible linear n) :
    ScopedCell n (isMajority I t) (isMajority J t) := by
  refine Scoped.lift_bind _ fun _ _ => (scoped_holdAlong H ht _).bind fun m parts _ hparts => ?_
  exact H.all m m (Nat.le_refl m) parts hparts

theorem scoped_isMaltsev (ht : t.Legible linear n) :
    ScopedCell n (isMaltsev I t) (isMaltsev J t) := by
  refine Scoped.lift_bind _ fun _ _ => (scoped_holdAlong H ht _).bind fun m parts _ hparts => ?_
  exact H.all m m (Nat.le_refl m) parts hparts

theorem scoped_isMonoid (ht : t.Legible linear n) :
    ScopedCell n (isMonoid I t) (isMonoid J t) := by
  refine Scoped.lift_bind _ fun _ _ => ?_
  refine (H.reduce _ _ _ (ht.named_cons _ (ht.named _))).bind fun m composed hm hcomposed => ?_
  refine (H.reduce _ _ _ (hcomposed.named_cons _ ((ht.mono hm).named _))).bind
    fun m' equal _ hequal => ?_
  exact scoped_isFunction H hequal

theorem scoped_image (ht : t.Legible linear n) (hu : u.Legible linear n) :
    ScopedTensor linear n (image I t u) (image J t u) := by
  unfold image
  split
  · exact H.reduce _ _ _ (ht.named_cons _ (hu.named _))
  · refine (H.reduce _ _ _ (ht.named_cons _ (hu.named _))).bind fun m first hm hfirst => ?_
    exact H.reduce _ _ _ (hfirst.named_cons _ ((hu.mono hm).named _))
  · refine (H.reduce _ _ _ (ht.named_cons _ (hu.named _))).bind fun m first hm hfirst => ?_
    have hu := hu.mono hm
    refine (H.reduce _ _ _ (hfirst.named_cons _ (hu.named _))).bind fun m second hm hsecond => ?_
    exact H.reduce _ _ _ (hsecond.named_cons _ ((hu.mono hm).named _))
  · exact Scoped.throw _

theorem scoped_isCompatible (ht : t.Legible linear n) (hu : u.Legible linear n) :
    ScopedCell n (isCompatible I t u) (isCompatible J t u) := by
  refine Scoped.lift_bind _ fun size _ => Scoped.lift_bind _ fun _ _ => ?_
  refine (scoped_image H ht hu).bind fun m reached hm hreached => ?_
  exact scoped_contained H .leq _ hreached (ht.mono hm)

theorem scoped_composite (ht : t.Legible linear n) (hu : u.Legible linear n) :
    ScopedTensor linear n (composite I t u) (composite J t u) := by
  unfold composite
  split
  · refine (H.reduce _ _ _ (ht.named_cons _ (hu.named _))).bind fun m first hm hfirst => ?_
    have hu := hu.mono hm
    refine (H.reduce _ _ _ (hfirst.named_cons _ (hu.named _))).bind fun m second hm hsecond => ?_
    exact H.reduce _ _ _ (hsecond.named_cons _ ((hu.mono hm).named _))
  · refine (H.reduce _ _ _ (ht.named_cons _ (hu.named _))).bind fun m first hm hfirst => ?_
    have hu := hu.mono hm
    refine (H.reduce _ _ _ (hfirst.named_cons _ (hu.named _))).bind fun m second hm hsecond => ?_
    have hu := hu.mono hm
    refine (H.reduce _ _ _ (hsecond.named_cons _ (hu.named _))).bind fun m third hm hthird => ?_
    exact H.reduce _ _ _ (hthird.named_cons _ ((hu.mono hm).named _))
  · exact Scoped.throw _
  · exact Scoped.throw _

theorem scoped_isStabilizer (ht : t.Legible linear n) (hu : u.Legible linear n) :
    ScopedCell n (isStabilizer I t u) (isStabilizer J t u) := by
  refine Scoped.lift_bind _ fun size _ => Scoped.lift_bind _ fun _ _ => ?_
  refine (scoped_composite H ht hu).bind fun m matching _ hmatching => ?_
  refine (H.fold .one 1 hmatching).bind fun m member _ hmember => ?_
  exact (H.fold .all _ hmember).bind fun _ _ _ => scoped_toScalar

theorem scoped_isPreserved (ht : t.Legible linear n) (hu : u.Legible linear n) :
    ScopedCell n (isPreserved I t u) (isPreserved J t u) := by
  refine Scoped.lift_bind _ fun _ _ => ?_
  dsimp only
  split
  · exact Scoped.throw _
  · refine Scoped.lift_bind _ fun _ _ => ?_
    have hgraphs : ∀ labels : List String, ∀ operand ∈ labels.map u.named,
        operand.tensor.Legible linear n := fun labels operand hoperand => by
      obtain ⟨_, -, rfl⟩ := List.mem_map.mp hoperand
      exact hu
    refine (H.reduce _ _ _ (ht.named_cons _ (ht.named_cons _ (hgraphs _)))).bind
      fun m reached hm hreached => ?_
    exact scoped_contained H .leq _ hreached (ht.mono hm)

theorem scoped_isClosedSubset (ht : t.Legible linear n) (hu : u.Legible linear n) :
    ScopedCell n (isClosedSubset I t u) (isClosedSubset J t u) := by
  unfold isClosedSubset
  split
  · exact Scoped.throw _
  · refine Scoped.lift_bind _ fun _ _ => ?_
    refine (H.reduce _ _ _ (ht.named_cons _ (hu.named _))).bind fun m columns hm hcolumns => ?_
    have ht := ht.mono hm
    refine (H.reduce _ _ _ (hcolumns.named_cons _ ((hu.mono hm).named _))).bind
      fun m closure hm hclosure => ?_
    exact scoped_contained H .equ 1 (ht.mono hm) hclosure

end Relation

/-! ## Bindings -/

/-- Each bound tensor is read for literals of the first `n` variables only. -/
def Bindings.Legible (linear : Prop) (n : Nat) (env : Bindings Literal) : Prop :=
  ∀ name t, env.find? name = some t → t.Legible linear n

namespace Bindings.Legible

variable {env : Bindings Literal} {m : Nat}

theorem mono (h : env.Legible linear m) (hmn : m ≤ n) : env.Legible linear n :=
  fun name t ht => (h name t ht).mono hmn

theorem insert (h : env.Legible linear n) (name : String) {t : Tensor Literal}
    (ht : t.Legible linear n) : Bindings.Legible linear n (env.insert name t) := by
  intro other u hu
  rw [NameMap.find?_insert] at hu
  split at hu
  · cases hu
    exact ht
  · exact h other u hu

theorem get (h : env.Legible linear n) {name : String} {t : Tensor Literal}
    (ht : env.get name = .ok t) : t.Legible linear n := by
  rw [Bindings.get] at ht
  split at ht
  next hfind =>
      cases ht
      exact h name t hfind
  next => cases ht

end Bindings.Legible

/-! ## Formulas -/

namespace Interpreter.InScope

variable {I J : Interpreter σ Literal} {t u : Tensor Literal}

theorem holds (H : InScope I J) (which : Property) (ht : t.Legible linear n) :
    ScopedCell n (Formula.holds I which t) (Formula.holds J which t) := by
  cases which with
  | reflexive => exact Relation.scoped_isReflexive H ht
  | symmetric => exact Relation.scoped_isSymmetric H ht
  | transitive => exact Relation.scoped_isTransitive H ht
  | equivalence => exact Relation.scoped_isEquivalence H ht
  | essential => exact Relation.scoped_isEssential H ht
  | function => exact Relation.scoped_isFunction H ht
  | majority => exact Relation.scoped_isMajority H ht
  | maltsev => exact Relation.scoped_isMaltsev H ht
  | essentialOperation => exact Relation.scoped_isEssentialOperation H ht
  | monoid => exact Relation.scoped_isMonoid H ht

theorem holdsOf (H : InScope I J) (which : Pairing) (ht : t.Legible linear n)
    (hu : u.Legible linear n) :
    ScopedCell n (Formula.holdsOf I which t u) (Formula.holdsOf J which t u) := by
  cases which with
  | compatible => exact Relation.scoped_isCompatible H ht hu
  | stabilizer => exact Relation.scoped_isStabilizer H ht hu
  | preserved => exact Relation.scoped_isPreserved H ht hu
  | closedSubset => exact Relation.scoped_isClosedSubset H ht hu

theorem combine (H : InScope I J) (op : Dyad) {a b : Literal} (ha : owns n a) (hb : owns n b) :
    ScopedCell n (Formula.combine I op a b) (Formula.combine J op a b) := by
  cases op with
  | and => exact H.conj ha hb
  | or => exact H.disj ha hb
  | imp | leq => exact H.imp ha hb
  | equ => exact H.equ ha hb

theorem scalar {x y : Run σ Literal} (h : ScopedCell n x y) :
    ScopedTensor linear n (x >>= fun l => pure (Tensor.scalar l))
      (y >>= fun l => pure (Tensor.scalar l)) :=
  h.bind fun _ _ _ hl => Scoped.pure (Legible.constant hl [])

theorem zipWith_named {ts : List (Tensor Literal)} (h : ∀ t ∈ ts, t.Legible linear n)
    (labels : List String) :
    ∀ operand ∈ List.zipWith Tensor.named ts labels, operand.tensor.Legible linear n := by
  intro operand hoperand
  obtain ⟨k, hk, rfl⟩ := List.getElem_of_mem hoperand
  rw [List.getElem_zipWith]
  exact h _ (List.getElem_mem _)

mutual

/-- The evaluation of every formula is in scope. -/
theorem eval (H : InScope I J) {n : Nat} {env : Bindings Literal} (henv : env.Legible linear n)
    (formula : Formula) (hlinear : linear → formula.linear) :
    ScopedTensor linear n (formula.eval I env) (formula.eval J env) := by
  cases formula with
  | var name => exact Scoped.lift fun t => henv.get
  | lift t => exact H.liftTensor t
  | constant shape value => exact H.constant shape value
  | map op arg => exact (eval H henv arg hlinear).bind fun m t _ ht => H.map op ht
  | map2 op left right =>
      simp only [Formula.linear, Bool.and_eq_true] at hlinear
      refine (eval H henv left fun h => (hlinear h).1).bind fun m t hm ht => ?_
      refine (eval H (henv.mono hm) right fun h => (hlinear h).2).bind fun m' u hm' hu => ?_
      exact H.map2 op (ht.mono hm') hu
  | fold agg axes arg => exact (eval H henv arg hlinear).bind fun m t _ ht => H.fold agg _ ht
  | reduce agg output op labels operands =>
      refine (evalAll H henv operands hlinear).bind fun m ts _ hts => ?_
      exact H.reduce agg output op (zipWith_named hts labels)
  | reshape shape axes arg =>
      simp only [Formula.linear, Bool.and_eq_true, decide_eq_true_eq] at hlinear
      refine (eval H henv arg fun h => (hlinear h).2).bind fun m t _ ht => ?_
      exact Scoped.lift fun u hu => ht.reshape (fun h => (hlinear h).1) hu
  | slice k arg =>
      refine (eval H henv arg hlinear).bind fun m t _ ht => ?_
      refine Scoped.lift_bind _ fun parts hparts => ?_
      cases hk : parts[k]? with
      | some part => exact Scoped.pure (ht.unconcat hparts part (List.mem_of_getElem? hk))
      | none => exact Scoped.throw _
  | stack parts =>
      refine (evalAll H henv parts hlinear).bind fun m ts _ hts => ?_
      exact Scoped.lift fun u hu => Legible.stack hts hu
  | connect op args =>
      refine (evalScalars H henv args hlinear).bind fun m ls _ hls => ?_
      exact scalar (H.connect m op m (Nat.le_refl m) ls hls)
  | aggregate agg args =>
      refine (evalScalars H henv args hlinear).bind fun m ls _ hls => ?_
      exact scalar (H.aggregate m agg m (Nat.le_refl m) ls hls)
  | truth => exact scalar (H.lift n true)
  | falsity => exact scalar (H.lift n false)
  | lifted value => exact scalar (H.lift n value)
  | id arg =>
      refine (eval H henv arg hlinear).bind fun m t _ ht => ?_
      exact scalar (Relation.scoped_toScalar ht)
  | not arg =>
      refine (eval H henv arg hlinear).bind fun m t _ ht => ?_
      exact Scoped.lift_bind _ fun l hl => scalar (H.neg (ht.toScalar hl))
  | dyad op left right =>
      simp only [Formula.linear, Bool.and_eq_true] at hlinear
      refine (eval H henv left fun h => (hlinear h).1).bind fun m t hm ht => ?_
      refine Scoped.lift_bind _ fun a ha => ?_
      refine (eval H (henv.mono hm) right fun h => (hlinear h).2).bind fun m' u hm' hu => ?_
      refine Scoped.lift_bind _ fun b hb => scalar ?_
      exact H.combine op (owns_mono hm' (ht.toScalar ha)) (hu.toScalar hb)
  | property which arg =>
      exact (eval H henv arg hlinear).bind fun m t _ ht => scalar (H.holds which ht)
  | pairing which left right =>
      simp only [Formula.linear, Bool.and_eq_true] at hlinear
      refine (eval H henv left fun h => (hlinear h).1).bind fun m t hm ht => ?_
      refine (eval H (henv.mono hm) right fun h => (hlinear h).2).bind fun m' u hm' hu => ?_
      exact scalar (H.holdsOf which (ht.mono hm') hu)
  | given name value body =>
      simp only [Formula.linear, Bool.and_eq_true] at hlinear
      refine (eval H henv value fun h => (hlinear h).1).bind fun m t hm ht => ?_
      exact eval H ((henv.mono hm).insert name ht) body fun h => (hlinear h).2
  | broken fault => exact Scoped.throw fault

theorem evalAll (H : InScope I J) {n : Nat} {env : Bindings Literal} (henv : env.Legible linear n)
    (formulas : List Formula) (hlinear : linear → Formula.linearAll formulas) :
    Scoped n (fun m ts => ∀ t ∈ ts, t.Legible linear m) (Formula.evalAll I env formulas)
      (Formula.evalAll J env formulas) := by
  cases formulas with
  | nil => exact Scoped.pure (by simp)
  | cons formula formulas =>
      simp only [Formula.linearAll, Bool.and_eq_true] at hlinear
      refine (eval H henv formula fun h => (hlinear h).1).bind fun m t hm ht => ?_
      refine (evalAll H (henv.mono hm) formulas fun h => (hlinear h).2).bind
        fun m' ts hm' hts => ?_
      exact Scoped.pure (List.forall_mem_cons.mpr ⟨ht.mono hm', hts⟩)

theorem evalScalars (H : InScope I J) {n : Nat} {env : Bindings Literal}
    (henv : env.Legible linear n) (formulas : List Formula)
    (hlinear : linear → Formula.linearAll formulas) :
    Scoped n (fun m ls => ∀ l ∈ ls, owns m l) (Formula.evalScalars I env formulas)
      (Formula.evalScalars J env formulas) := by
  cases formulas with
  | nil => exact Scoped.pure (by simp)
  | cons formula formulas =>
      simp only [Formula.linearAll, Bool.and_eq_true] at hlinear
      refine (eval H henv formula fun h => (hlinear h).1).bind fun m t hm ht => ?_
      refine Scoped.lift_bind _ fun l hl => ?_
      refine (evalScalars H (henv.mono hm) formulas fun h => (hlinear h).2).bind
        fun m' ls hm' hls => ?_
      exact Scoped.pure (List.forall_mem_cons.mpr ⟨owns_mono hm' (ht.toScalar hl), hls⟩)

end

theorem compute (H : InScope I J) {env : Bindings Literal} (henv : env.Legible linear n)
    (formula : Formula) (hlinear : linear → formula.linear) :
    ScopedCell n (formula.compute I env) (formula.compute J env) :=
  (H.eval henv formula hlinear).bind fun _ _ _ => Relation.scoped_toScalar

end Interpreter.InScope

end TensorLogic
