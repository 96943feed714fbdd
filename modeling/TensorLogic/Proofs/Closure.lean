import TensorLogic.Formula
import TensorLogic.Interpreter.Clausal
import TensorLogic.Proofs.Contraction

/-!
# What all formulas are made of

A formula never touches the state of its interpreter. Whatever it does is put together
from the interpreter's own operations, by sequence, return and failure. So a property of
computations that these three keep (`Run.Closed`) holds of the evaluation of every formula
as soon as it holds of the operations (`Interpreter.Closed.eval`). Nothing is asked of the
tensors here: also a read beyond a buffer is only a failure.
-/

namespace TensorLogic

variable {σ α β γ : Type}

/-- A property of computations that sequence, return and failure keep. -/
structure Run.Closed (P : ∀ ⦃α : Type⦄, Run σ α → Prop) : Prop where
  pure : ∀ {α : Type} (a : α), P (pure a)
  throw : ∀ {α : Type} (fault : Fault), P (throw fault : Run σ α)
  bind : ∀ {α β : Type} {x : Run σ α} {k : α → Run σ β},
    P x → (∀ a, P (k a)) → P (x >>= k)

namespace Run.Closed

variable {P : ∀ ⦃α : Type⦄, Run σ α → Prop} (hP : Run.Closed P)
include hP

theorem lift (x : Except Fault α) : P (liftM x : Run σ α) := by
  cases x with
  | ok a => exact hP.pure a
  | error fault => exact hP.throw fault

theorem lift_bind (x : Except Fault α) {k : α → Run σ β} (hk : ∀ a, P (k a)) :
    P (liftM x >>= k) :=
  hP.bind (hP.lift x) hk

theorem mapM {f : α → Run σ β} (h : ∀ a, P (f a)) (l : List α) : P (l.mapM f) := by
  induction l with
  | nil => exact hP.pure []
  | cons a l ih =>
      rw [List.mapM_cons]
      exact hP.bind (h a) fun b => hP.bind ih fun bs => hP.pure (b :: bs)

/-! ## Operations on tensors -/

theorem collect {f : Index → Run σ β} (h : ∀ index, P (f index)) (shape : Shape) :
    P (shape.collect f) := by
  rw [Shape.collect_eq, map_eq_pure_bind]
  exact hP.bind (hP.mapM h _) fun cells => hP.pure cells.toArray

theorem fill {f : Index → Run σ β} (h : ∀ index, P (f index)) (shape : Shape) :
    P (Tensor.fill shape f) :=
  hP.bind (hP.collect h shape) fun _ => hP.lift _

theorem grown [Cell β] {f : Index → Run σ β} (h : ∀ index, P (f index)) (shape : Shape)
    (index : Index) : P (Tensor.grown shape f index) :=
  hP.bind (h index) fun cell => hP.lift_bind _ fun _ => hP.pure cell

theorem generate [Cell β] {f : Index → Run σ β} (h : ∀ index, P (f index)) (shape : Shape) :
    P (Tensor.generate shape f) := by
  rw [Tensor.generate_eq]
  split
  · exact hP.throw _
  · exact hP.lift_bind _ fun _ => hP.fill h shape

theorem map [Cell β] {f : α → Run σ β} (h : ∀ a, P (f a)) (t : Tensor α) : P (t.map f) := by
  rw [Tensor.map_eq]
  exact hP.fill (hP.grown (fun _ => hP.lift_bind _ h) t.shape) t.shape

theorem map2 [Cell γ] {f : α → β → Run σ γ} (h : ∀ a b, P (f a b)) (t : Tensor α) (u : Tensor β) :
    P (Tensor.map2 t u f) := by
  rw [Tensor.map2_eq]
  split
  · exact hP.fill (hP.grown (fun _ => hP.lift_bind _ fun a => hP.lift_bind _ (h a)) t.shape) t.shape
  · exact hP.throw _

theorem fold [Cell α] [Cell β] {f : List α → Run σ β} (h : ∀ cells, P (f cells))
    (t : Tensor α) (axes : Nat) : P (t.fold axes f) := by
  unfold Tensor.fold
  by_cases haxes : axes > t.rank
  · rw [if_pos haxes]
    exact hP.throw _
  · rw [if_neg haxes]
    refine hP.lift_bind _ fun offsets => hP.lift_bind _ fun _ => ?_
    refine hP.lift_bind _ fun size => hP.lift_bind _ fun _ => ?_
    refine hP.fill (fun index => ?_) _
    exact hP.lift_bind _ fun base => hP.lift_bind _ h

theorem reduce [Cell α] {combine aggregate : List α → Run σ α}
    (hcombine : ∀ cells, P (combine cells)) (haggregate : ∀ cells, P (aggregate cells))
    (output : String) (operands : List (Labelled α)) :
    P (reduce output operands combine aggregate) := by
  have hjoin : P (join output operands combine) := by
    rw [Join.join_eq]
    refine hP.lift_bind _ fun axes => hP.lift_bind _ fun _ => ?_
    refine hP.bind (hP.generate (fun index => hP.lift_bind _ hcombine) _) fun _ => hP.pure _
  exact hP.bind hjoin fun joined => hP.fold haggregate joined.tensor joined.folded

end Run.Closed

/-- The property holds of every operation that the interpreter gives. -/
structure Interpreter.Closed (P : ∀ ⦃α : Type⦄, Run σ α → Prop) (I : Interpreter σ α) :
    Prop extends Run.Closed P where
  lift : ∀ value, P (I.lift value)
  neg : ∀ a, P (I.neg a)
  conj : ∀ a b, P (I.conj a b)
  disj : ∀ a b, P (I.disj a b)
  equ : ∀ a b, P (I.equ a b)
  imp : ∀ a b, P (I.imp a b)
  all : ∀ values, P (I.all values)
  any : ∀ values, P (I.any values)
  one : ∀ values, P (I.one values)
  eqs : ∀ values, P (I.eqs values)

namespace Interpreter.Closed

variable {P : ∀ ⦃α : Type⦄, Run σ α → Prop} {I : Interpreter σ α} (hI : I.Closed P)
include hI

theorem aggregate (agg : Aggregate) (values : List α) : P (I.aggregate agg values) := by
  cases agg with
  | all => exact hI.all values
  | any => exact hI.any values
  | one => exact hI.one values
  | eqs => exact hI.eqs values

theorem connect (op : Connective) (args : List α) : P (I.connect op args) := by
  unfold Interpreter.connect
  split
  · exact hI.pure _
  · exact hI.neg _
  · exact hI.all _
  · exact hI.any _
  · exact hI.imp _ _
  · exact hI.equ _ _
  · exact hI.imp _ _
  · exact hI.throw _

theorem constant (shape : Shape) (value : Bool) : P (I.constant shape value) :=
  hI.bind (hI.lift value) fun _ => hI.pure _

variable [Cell α]

theorem liftTensor (t : Tensor Bool) : P (I.liftTensor t) :=
  hI.toClosed.map hI.lift t

theorem map (op : Connective) (t : Tensor α) : P (I.map op t) :=
  hI.toClosed.map (fun _ => hI.connect op _) t

theorem map2 (op : Connective) (t u : Tensor α) : P (I.map2 op t u) :=
  hI.toClosed.map2 (fun _ _ => hI.connect op _) t u

theorem fold (agg : Aggregate) (axes : Nat) (t : Tensor α) : P (I.fold agg axes t) :=
  hI.toClosed.fold (hI.aggregate agg) t axes

theorem reduce (agg : Aggregate) (output : String) (op : Connective)
    (operands : List (Labelled α)) : P (I.reduce agg output op operands) :=
  hI.toClosed.reduce (hI.connect op) (hI.aggregate agg) output operands

end Interpreter.Closed

/-! ## Predicates -/

namespace Relation

variable [Cell α] {P : ∀ ⦃α : Type⦄, Run σ α → Prop} {I : Interpreter σ α} (hI : I.Closed P)
include hI

theorem closed_isReflexive (rel : Tensor α) : P (isReflexive I rel) := by
  refine hI.lift_bind _ fun _ => hI.bind (hI.reduce _ _ _ _) fun all => ?_
  exact hI.toClosed.lift all.toScalar

theorem closed_isSymmetric (rel : Tensor α) : P (isSymmetric I rel) := by
  refine hI.lift_bind _ fun _ => hI.bind (hI.reduce _ _ _ _) fun all => ?_
  exact hI.toClosed.lift all.toScalar

/-- The end of most predicates: one relation is contained in another. -/
theorem closed_contained (op : Connective) (axes : Nat) (t u : Tensor α) :
    P (do
      let contained ← I.map2 op t u
      let all ← I.fold .all axes contained
      all.toScalar) := by
  refine hI.bind (hI.map2 op t u) fun contained => ?_
  exact hI.bind (hI.fold .all axes contained) fun all => hI.toClosed.lift all.toScalar

theorem closed_isTransitive (rel : Tensor α) : P (isTransitive I rel) := by
  refine hI.lift_bind _ fun _ => hI.bind (hI.reduce _ _ _ _) fun composed => ?_
  exact closed_contained hI .leq 2 composed rel

theorem closed_isEquivalence (rel : Tensor α) : P (isEquivalence I rel) := by
  refine hI.bind (closed_isReflexive hI rel) fun reflexive => ?_
  refine hI.bind (closed_isSymmetric hI rel) fun symmetric => ?_
  refine hI.bind (closed_isTransitive hI rel) fun transitive => ?_
  exact hI.all [reflexive, symmetric, transitive]

theorem closed_shadows (rel : Tensor α) (labels : String) (axes : List Nat) :
    P (shadows I rel labels axes) := by
  induction axes with
  | nil => exact hI.pure []
  | cons axis axes ih =>
      refine hI.bind (hI.reduce _ _ _ _) fun shadow => ?_
      exact hI.bind ih fun others => hI.pure _

theorem closed_isEssential (rel : Tensor α) : P (isEssential I rel) := by
  refine hI.lift_bind _ fun labels => ?_
  refine hI.bind (closed_shadows hI rel labels _) fun parts => ?_
  refine hI.bind (hI.map .not rel) fun outside => ?_
  exact hI.bind (hI.reduce _ _ _ _) fun found => hI.toClosed.lift found.toScalar

theorem closed_ignoredArguments (op : Tensor α) (labels : String) (axes : List Nat) :
    P (ignoredArguments I op labels axes) := by
  induction axes with
  | nil => exact hI.pure []
  | cons axis axes ih =>
      refine hI.bind (hI.reduce _ _ _ _) fun constant => ?_
      refine hI.bind (hI.fold _ _ constant) fun all => ?_
      exact hI.lift_bind _ fun ignored => hI.bind ih fun others => hI.pure _

theorem closed_isEssentialOperation (op : Tensor α) : P (isEssentialOperation I op) := by
  refine hI.lift_bind _ fun labels => ?_
  refine hI.bind (closed_ignoredArguments hI op labels _) fun ignored => ?_
  exact hI.bind (hI.any ignored) fun ignoresOne => hI.neg ignoresOne

theorem closed_isFunction (graph : Tensor α) : P (isFunction I graph) := by
  refine hI.lift_bind _ fun labels => hI.bind (hI.reduce _ _ _ _) fun unique => ?_
  exact hI.bind (hI.fold _ _ unique) fun all => hI.toClosed.lift all.toScalar

theorem closed_holdAlong (op : Tensor α) (labellings : List String) :
    P (holdAlong I op labellings) := by
  induction labellings with
  | nil => exact hI.pure []
  | cons labels rest ih =>
      refine hI.bind (hI.reduce _ _ _ _) fun all => ?_
      exact hI.lift_bind _ fun holds => hI.bind ih fun others => hI.pure _

theorem closed_isMajority (op : Tensor α) : P (isMajority I op) :=
  hI.lift_bind _ fun _ => hI.bind (closed_holdAlong hI op _) hI.all

theorem closed_isMaltsev (op : Tensor α) : P (isMaltsev I op) :=
  hI.lift_bind _ fun _ => hI.bind (closed_holdAlong hI op _) hI.all

theorem closed_isMonoid (monoid : Tensor α) : P (isMonoid I monoid) := by
  refine hI.lift_bind _ fun _ => hI.bind (hI.reduce _ _ _ _) fun composed => ?_
  exact hI.bind (hI.reduce _ _ _ _) fun equal => closed_isFunction hI equal

theorem closed_image (rel monoid : Tensor α) : P (image I rel monoid) := by
  unfold image
  split
  · exact hI.reduce _ _ _ _
  · exact hI.bind (hI.reduce _ _ _ _) fun first => hI.reduce _ _ _ _
  · refine hI.bind (hI.reduce _ _ _ _) fun first => ?_
    exact hI.bind (hI.reduce _ _ _ _) fun second => hI.reduce _ _ _ _
  · exact hI.throw _

theorem closed_isCompatible (rel monoid : Tensor α) : P (isCompatible I rel monoid) := by
  refine hI.lift_bind _ fun n => hI.lift_bind _ fun _ => ?_
  refine hI.bind (closed_image hI rel monoid) fun reached => ?_
  exact closed_contained hI .leq _ reached rel

theorem closed_composite (op monoid : Tensor α) : P (composite I op monoid) := by
  unfold composite
  split
  · refine hI.bind (hI.reduce _ _ _ _) fun t => ?_
    exact hI.bind (hI.reduce _ _ _ _) fun t => hI.reduce _ _ _ _
  · refine hI.bind (hI.reduce _ _ _ _) fun t => hI.bind (hI.reduce _ _ _ _) fun t => ?_
    exact hI.bind (hI.reduce _ _ _ _) fun t => hI.reduce _ _ _ _
  · exact hI.throw _
  · exact hI.throw _

theorem closed_isStabilizer (op monoid : Tensor α) : P (isStabilizer I op monoid) := by
  refine hI.lift_bind _ fun n => hI.lift_bind _ fun _ => ?_
  refine hI.bind (closed_composite hI op monoid) fun matching => ?_
  refine hI.bind (hI.fold _ _ matching) fun member => ?_
  exact hI.bind (hI.fold _ _ member) fun all => hI.toClosed.lift all.toScalar

theorem closed_isPreserved (rel op : Tensor α) : P (isPreserved I rel op) := by
  refine hI.lift_bind _ fun _ => ?_
  dsimp only
  split
  · exact hI.throw _
  · refine hI.lift_bind _ fun _ => hI.bind (hI.reduce _ _ _ _) fun reached => ?_
    exact closed_contained hI .leq _ reached rel

theorem closed_isClosedSubset (subset galois : Tensor α) :
    P (isClosedSubset I subset galois) := by
  unfold isClosedSubset
  split
  · exact hI.throw _
  · refine hI.lift_bind _ fun _ => hI.bind (hI.reduce _ _ _ _) fun columns => ?_
    refine hI.bind (hI.reduce _ _ _ _) fun closure => ?_
    exact closed_contained hI .equ 1 subset closure

end Relation

/-! ## Formulas -/

namespace Interpreter.Closed

variable {P : ∀ ⦃α : Type⦄, Run σ α → Prop} {I : Interpreter σ α}

theorem combine (hI : I.Closed P) (op : Dyad) (a b : α) : P (Formula.combine I op a b) := by
  cases op with
  | and => exact hI.conj a b
  | or => exact hI.disj a b
  | imp | leq => exact hI.imp a b
  | equ => exact hI.equ a b

theorem scalar (hI : I.Closed P) {x : Run σ α} (h : P x) :
    P (x >>= fun cell => Pure.pure (Tensor.scalar cell)) :=
  hI.bind h fun cell => hI.pure (Tensor.scalar cell)

variable [Cell α]

theorem holds (hI : I.Closed P) (which : Property) (t : Tensor α) :
    P (Formula.holds I which t) := by
  cases which with
  | reflexive => exact Relation.closed_isReflexive hI t
  | symmetric => exact Relation.closed_isSymmetric hI t
  | transitive => exact Relation.closed_isTransitive hI t
  | equivalence => exact Relation.closed_isEquivalence hI t
  | essential => exact Relation.closed_isEssential hI t
  | function => exact Relation.closed_isFunction hI t
  | majority => exact Relation.closed_isMajority hI t
  | maltsev => exact Relation.closed_isMaltsev hI t
  | essentialOperation => exact Relation.closed_isEssentialOperation hI t
  | monoid => exact Relation.closed_isMonoid hI t

theorem holdsOf (hI : I.Closed P) (which : Pairing) (t u : Tensor α) :
    P (Formula.holdsOf I which t u) := by
  cases which with
  | compatible => exact Relation.closed_isCompatible hI t u
  | stabilizer => exact Relation.closed_isStabilizer hI t u
  | preserved => exact Relation.closed_isPreserved hI t u
  | closedSubset => exact Relation.closed_isClosedSubset hI t u

mutual

/-- The property holds of the evaluation of every formula. -/
theorem eval (hI : I.Closed P) (env : Bindings α) (formula : Formula) :
    P (formula.eval I env) := by
  cases formula with
  | var name => exact hI.toClosed.lift _
  | lift t => exact hI.liftTensor t
  | constant shape value => exact hI.constant shape value
  | map op arg => exact hI.bind (eval hI env arg) fun t => hI.map op t
  | map2 op left right =>
      refine hI.bind (eval hI env left) fun a => hI.bind (eval hI env right) fun b => ?_
      exact hI.map2 op a b
  | fold agg axes arg => exact hI.bind (eval hI env arg) fun t => hI.fold agg _ t
  | reduce agg output op labels operands =>
      exact hI.bind (evalAll hI env operands) fun tensors => hI.reduce agg output op _
  | reshape shape axes arg =>
      exact hI.bind (eval hI env arg) fun t => hI.toClosed.lift _
  | slice k arg =>
      refine hI.bind (eval hI env arg) fun t => hI.lift_bind _ fun parts => ?_
      split
      · exact hI.pure _
      · exact hI.throw _
  | stack parts =>
      exact hI.bind (evalAll hI env parts) fun tensors => hI.toClosed.lift _
  | connect op args =>
      exact hI.bind (evalScalars hI env args) fun cells => hI.scalar (hI.connect op cells)
  | aggregate agg args =>
      exact hI.bind (evalScalars hI env args) fun cells => hI.scalar (hI.aggregate agg cells)
  | truth => exact hI.scalar (hI.lift true)
  | falsity => exact hI.scalar (hI.lift false)
  | lifted value => exact hI.scalar (hI.lift value)
  | id arg =>
      exact hI.bind (eval hI env arg) fun t => hI.scalar (hI.toClosed.lift t.toScalar)
  | not arg =>
      refine hI.bind (eval hI env arg) fun t => hI.lift_bind _ fun cell => ?_
      exact hI.scalar (hI.neg cell)
  | dyad op left right =>
      refine hI.bind (eval hI env left) fun t => hI.lift_bind _ fun a => ?_
      refine hI.bind (eval hI env right) fun u => hI.lift_bind _ fun b => ?_
      exact hI.scalar (hI.combine op a b)
  | property which arg =>
      exact hI.bind (eval hI env arg) fun t => hI.scalar (hI.holds which t)
  | pairing which left right =>
      refine hI.bind (eval hI env left) fun a => hI.bind (eval hI env right) fun b => ?_
      exact hI.scalar (hI.holdsOf which a b)
  | given name value body =>
      exact hI.bind (eval hI env value) fun t => eval hI (env.insert name t) body
  | broken fault => exact hI.throw fault

theorem evalAll (hI : I.Closed P) (env : Bindings α) (formulas : List Formula) :
    P (Formula.evalAll I env formulas) := by
  cases formulas with
  | nil => exact hI.pure []
  | cons formula formulas =>
      refine hI.bind (eval hI env formula) fun t => ?_
      exact hI.bind (evalAll hI env formulas) fun others => hI.pure (t :: others)

theorem evalScalars (hI : I.Closed P) (env : Bindings α) (formulas : List Formula) :
    P (Formula.evalScalars I env formulas) := by
  cases formulas with
  | nil => exact hI.pure []
  | cons formula formulas =>
      refine hI.bind (eval hI env formula) fun t => hI.lift_bind _ fun cell => ?_
      exact hI.bind (evalScalars hI env formulas) fun others => hI.pure (cell :: others)

end

theorem compute (hI : I.Closed P) (env : Bindings α) (formula : Formula) :
    P (formula.compute I env) :=
  hI.bind (eval hI env formula) fun t => hI.toClosed.lift t.toScalar

end Interpreter.Closed

/-! ## Interpreters -/

section Gates

variable {P : ∀ ⦃α : Type⦄, Run σ α → Prop}

/-- The property holds of the operations that have to be given. -/
structure Gates.Closed (P : ∀ ⦃α : Type⦄, Run σ α → Prop) (g : Gates σ α) : Prop
    extends Run.Closed P where
  lift : ∀ value, P (g.lift value)
  neg : ∀ a, P (g.neg a)
  conj : ∀ a b, P (g.conj a b)
  disj : ∀ a b, P (g.disj a b)
  equ : ∀ a b, P (g.equ a b)

namespace Gates.Closed

variable {g : Gates σ α} (hg : g.Closed P)
include hg

theorem scanOne (seenOne : α) (seenTwo : Option α) (values : List α) :
    P (g.scanOne seenOne seenTwo values) := by
  induction values generalizing seenOne seenTwo with
  | nil => exact hg.pure _
  | cons a rest ih =>
      refine hg.bind (hg.conj seenOne a) fun both => ?_
      cases seenTwo with
      | none =>
          exact hg.bind (hg.pure both) fun two => hg.bind (hg.disj seenOne a) fun one => ih _ _
      | some two =>
          exact hg.bind (hg.disj two both) fun two =>
            hg.bind (hg.disj seenOne a) fun one => ih _ _

theorem one (values : List α) : P (g.one values) := by
  cases values with
  | nil => exact hg.lift false
  | cons a rest =>
      refine hg.bind (hg.scanOne a none rest) fun seen => ?_
      split
      · exact hg.bind (hg.neg _) fun notTwo => hg.conj _ notTwo
      · exact hg.pure _

theorem eqs {conjoin : List α → Run σ α} (h : ∀ values, P (conjoin values))
    (values : List α) : P (g.eqs conjoin values) := by
  cases values with
  | nil => exact hg.lift true
  | cons a rest => exact hg.bind (hg.toClosed.mapM (hg.equ a) rest) h

end Gates.Closed

/-- The property holds of the two requests that make clauses. -/
structure Session.Closed [Session σ] (P : ∀ ⦃α : Type⦄, Run σ α → Prop) : Prop
    extends Run.Closed P where
  allocate : P (Session.allocate : Run σ Literal)
  ensure : ∀ clause, P (Session.ensure clause : Run σ Unit)

namespace Session.Closed

variable [Session σ] (hS : Session.Closed P)
include hS

theorem lift (value : Bool) : P (Clausal.lift value : Run σ Literal) :=
  hS.bind hS.allocate fun out => hS.bind (hS.ensure _) fun _ => hS.pure out

theorem ensureEach (f : Literal → Clause) (inputs : List Literal) :
    P (inputs.forM fun x => Session.ensure (f x) : Run σ PUnit) := by
  induction inputs with
  | nil => exact hS.pure _
  | cons x inputs ih => exact hS.bind (hS.ensure _) fun _ => ih

theorem andGate (inputs : List Literal) : P (Clausal.andGate inputs : Run σ Literal) := by
  refine hS.bind hS.allocate fun out => hS.bind (hS.ensureEach _ inputs) fun _ => ?_
  exact hS.bind (hS.ensure _) fun _ => hS.pure out

theorem orGate (inputs : List Literal) : P (Clausal.orGate inputs : Run σ Literal) := by
  refine hS.bind hS.allocate fun out => hS.bind (hS.ensureEach _ inputs) fun _ => ?_
  exact hS.bind (hS.ensure _) fun _ => hS.pure out

theorem equGate (a b : Literal) : P (Clausal.equGate a b : Run σ Literal) := by
  refine hS.bind hS.allocate fun out => ?_
  refine hS.bind (hS.ensure _) fun _ => hS.bind (hS.ensure _) fun _ => ?_
  exact hS.bind (hS.ensure _) fun _ => hS.bind (hS.ensure _) fun _ => hS.pure out

theorem gates : (Clausal.gates : Gates σ Literal).Closed P :=
  { hS.toClosed with
    lift := hS.lift
    neg := fun a => hS.pure (-a)
    conj := fun a b => hS.andGate [a, b]
    disj := fun a b => hS.orGate [a, b]
    equ := hS.equGate }

theorem all (inputs : List Literal) : P (Clausal.all inputs : Run σ Literal) := by
  unfold Clausal.all
  split
  · exact hS.lift true
  · exact hS.pure _
  · exact hS.andGate inputs

theorem any (inputs : List Literal) : P (Clausal.any inputs : Run σ Literal) := by
  unfold Clausal.any
  split
  · exact hS.lift false
  · exact hS.pure _
  · exact hS.orGate inputs

/-- What holds of the requests holds of every gate. -/
theorem literals : (Clausal.literals : Interpreter σ Literal).Closed P :=
  { hS.gates with
    imp := fun a b => hS.orGate [-a, b]
    all := hS.all
    any := hS.any
    one := hS.gates.one
    eqs := hS.gates.eqs hS.all }

end Session.Closed

end Gates

end TensorLogic
