import TensorLogic.Proofs.Evaluation

/-!
# Where a formula stops

The evaluation of a formula stops at its first fault, and the fault itself does not say
which operation it comes from: two of them may be refused with one message. `evalAt`
evaluates a formula as `eval` does and says where it stopped. A place is the way into the
formula, argument by argument, down to the operation that failed while none of its
arguments did. Forgetting the places gives back the evaluation (`forget_evalAt`), and what
stands at the place of a stop is an operation of the formula (`evalAt_within`).

A formula under two linked interpreters, with bindings whose tensors are alike: the two
evaluations follow each other, and if they stop, then at one place (`Linked.evalAt`). The
induction is on the formula, with one case per constructor, and every case is the lemma
about the operation it stands for. Without the places it is one about `eval` (`Linked.eval`).
-/

namespace TensorLogic

variable {σ τ α β A B C D : Type}

/-- Which arguments to go into, from the outside in. -/
abbrev Place := List Nat

/-- Computations whose failures say where. -/
abbrev Located (σ : Type) := EStateM (Place × Fault) σ

namespace Located

/-- A failure of the computation is one of the operation at hand. -/
def here (x : Run σ A) : Located σ A := fun s =>
  match x s with
  | .ok a s' => .ok a s'
  | .error fault s' => .error ([], fault) s'

/-- A failure of the computation is one inside argument `k`. -/
def inside (k : Nat) (x : Located σ A) : Located σ A := fun s =>
  match x s with
  | .ok a s' => .ok a s'
  | .error (place, fault) s' => .error (k :: place, fault) s'

/-- The computation without the places. -/
def forget (x : Located σ A) : Run σ A := fun s =>
  match x s with
  | .ok a s' => .ok a s'
  | .error (_, fault) s' => .error fault s'

@[simp] theorem forget_pure (a : A) : forget (pure a : Located σ A) = pure a :=
  rfl

@[simp] theorem forget_bind (x : Located σ A) (k : A → Located σ B) :
    forget (x >>= k) = forget x >>= fun a => forget (k a) := by
  funext s
  simp only [forget, Bind.bind, EStateM.bind]
  cases x s <;> rfl

@[simp] theorem forget_here (x : Run σ A) : forget (here x) = x := by
  funext s
  rw [forget, here]
  cases x s <;> rfl

@[simp] theorem forget_inside (k : Nat) (x : Located σ A) :
    forget (inside k x) = forget x := by
  funext s
  rw [forget, inside, forget]
  cases x s <;> rfl

end Located

namespace Formula

open Located

section

variable [Cell α] (I : Interpreter σ α)

mutual

/-- The value of a formula, or the place where its evaluation stops and the fault there. -/
def evalAt (env : Bindings α) : Formula → Located σ (Tensor α)
  | map op arg => do
      let t ← inside 0 (evalAt env arg)
      here (I.map op t)
  | map2 op left right => do
      let a ← inside 0 (evalAt env left)
      let b ← inside 1 (evalAt env right)
      here (I.map2 op a b)
  | fold agg axes arg => do
      let t ← inside 0 (evalAt env arg)
      here (I.fold agg (axes.getD t.rank) t)
  | reduce agg output op labels operands => do
      let tensors ← evalAllAt env 0 operands
      here (I.reduce agg output op (List.zipWith Tensor.named tensors labels))
  | reshape shape axes arg => do
      let t ← inside 0 (evalAt env arg)
      here (liftM (t.reshape shape axes))
  | slice k arg => do
      let t ← inside 0 (evalAt env arg)
      here (pick k t)
  | stack parts => do
      let tensors ← evalAllAt env 0 parts
      here (liftM (Tensor.stack tensors))
  | connect op args => do
      let cells ← evalScalarsAt env 0 args
      here do
        let cell ← I.connect op cells
        pure (.scalar cell)
  | aggregate agg args => do
      let cells ← evalScalarsAt env 0 args
      here do
        let cell ← I.aggregate agg cells
        pure (.scalar cell)
  | id arg => do
      let t ← inside 0 (evalAt env arg)
      here do
        let cell : α ← t.toScalar
        pure (.scalar cell)
  | not arg => do
      let t ← inside 0 (evalAt env arg)
      here do
        let cell : α ← t.toScalar
        let cell ← I.neg cell
        pure (.scalar cell)
  | dyad op left right => do
      let t ← inside 0 (evalAt env left)
      let a : α ← here (liftM t.toScalar)
      let t ← inside 1 (evalAt env right)
      here do
        let b : α ← t.toScalar
        let cell ← combine I op a b
        pure (.scalar cell)
  | property which arg => do
      let t ← inside 0 (evalAt env arg)
      here do
        let cell ← holds I which t
        pure (.scalar cell)
  | pairing which left right => do
      let a ← inside 0 (evalAt env left)
      let b ← inside 1 (evalAt env right)
      here do
        let cell ← holdsOf I which a b
        pure (.scalar cell)
  | given name value body => do
      let t ← inside 0 (evalAt env value)
      inside 1 (evalAt (env.insert name t) body)
  | formula@(var _) | formula@(lift _) | formula@(constant _ _) | formula@truth
  | formula@falsity | formula@(lifted _) | formula@(broken _) => here (eval I env formula)

/-- The values of several arguments, the first of which is argument `k`. -/
def evalAllAt (env : Bindings α) (k : Nat) : List Formula → Located σ (List (Tensor α))
  | [] => pure []
  | arg :: args => do
      let t ← inside k (evalAt env arg)
      let others ← evalAllAt env (k + 1) args
      pure (t :: others)

/-- The values of several scalar arguments, the first of which is argument `k`. That they
are scalars is asked for by the operation, not by the argument. -/
def evalScalarsAt (env : Bindings α) (k : Nat) : List Formula → Located σ (List α)
  | [] => pure []
  | arg :: args => do
      let t ← inside k (evalAt env arg)
      let cell : α ← here (liftM t.toScalar)
      let others ← evalScalarsAt env (k + 1) args
      pure (cell :: others)

end

mutual

/-- But for the place of a failure, this is the evaluation. -/
theorem forget_evalAt (env : Bindings α) (formula : Formula) :
    forget (formula.evalAt I env) = formula.eval I env := by
  cases formula with
  | var | lift | constant | truth | falsity | lifted | broken =>
      rw [evalAt, forget_here]
  | map op arg | fold agg axes arg | reshape shape axes arg | id arg | not arg
  | property which arg =>
      simp only [evalAt, eval, forget_bind, forget_here, forget_inside, forget_evalAt env arg]
  | slice k arg =>
      simp only [evalAt, eval, forget_bind, forget_here, forget_inside, forget_evalAt env arg]
      rfl
  | map2 op left right | dyad op left right | pairing which left right =>
      simp only [evalAt, eval, forget_bind, forget_here, forget_inside,
        forget_evalAt env left, forget_evalAt env right]
  | reduce agg output op labels args | stack args =>
      simp only [evalAt, eval, forget_bind, forget_here, forget_evalAllAt env _ args]
  | connect op args | aggregate agg args =>
      simp only [evalAt, eval, forget_bind, forget_here, forget_evalScalarsAt env _ args]
  | given name value body =>
      simp only [evalAt, eval, forget_bind, forget_inside, forget_evalAt env value]
      exact congrArg _ (funext fun t => forget_evalAt (env.insert name t) body)

theorem forget_evalAllAt (env : Bindings α) (k : Nat) (formulas : List Formula) :
    forget (evalAllAt I env k formulas) = evalAll I env formulas := by
  cases formulas with
  | nil => rfl
  | cons formula formulas =>
      simp only [evalAllAt, evalAll, forget_bind, forget_inside, forget_pure,
        forget_evalAt env formula, forget_evalAllAt env (k + 1) formulas]

theorem forget_evalScalarsAt (env : Bindings α) (k : Nat) (formulas : List Formula) :
    forget (evalScalarsAt I env k formulas) = evalScalars I env formulas := by
  cases formulas with
  | nil => rfl
  | cons formula formulas =>
      simp only [evalScalarsAt, evalScalars, forget_bind, forget_inside, forget_here,
        forget_pure, forget_evalAt env formula, forget_evalScalarsAt env (k + 1) formulas]

end

end

end Formula

/-! ## Places in a formula -/

namespace Formula

open Located

/-- The arguments of an operation, in the order in which they are computed. -/
def arguments : Formula → List Formula
  | map _ arg | fold _ _ arg | reshape _ _ arg | slice _ arg | id arg | not arg
  | property _ arg => [arg]
  | map2 _ left right | dyad _ left right | pairing _ left right => [left, right]
  | given _ value body => [value, body]
  | reduce _ _ _ _ args | stack args | connect _ args | aggregate _ args => args
  | var _ | lift _ | constant _ _ | truth | falsity | lifted _ | broken _ => []

/-- The operation at a place, with its arguments. -/
def part (formula : Formula) : Place → Option Formula
  | [] => some formula
  | k :: place => do
      let arg ← formula.arguments[k]?
      arg.part place

/-- The computation stops at operations of the formula only. -/
def Within (formula : Formula) (x : Located σ A) : Prop :=
  ∀ s place fault s', x s = .error (place, fault) s' → ∃ op, formula.part place = some op

namespace Within

variable {formula arg : Formula}

theorem pure (a : A) : formula.Within (pure a : Located σ A) :=
  fun _ _ _ _ h => nomatch h

theorem here (x : Run σ A) : formula.Within (here x) := by
  intro s place fault s' h
  rw [Located.here] at h
  cases hx : x s <;> rw [hx] at h
  · cases h
  · cases h
    exact ⟨formula, rfl⟩

theorem inside {k : Nat} {x : Located σ A} (harg : formula.arguments[k]? = some arg)
    (h : arg.Within x) : formula.Within (inside k x) := by
  intro s place fault s' hstop
  rw [Located.inside] at hstop
  cases hx : x s <;> rw [hx] at hstop
  · cases hstop
  · cases hstop
    obtain ⟨op, hop⟩ := h _ _ _ _ hx
    exact ⟨op, by rw [part, harg]; exact hop⟩

theorem bind {x : Located σ A} {k : A → Located σ B} (hx : formula.Within x)
    (hk : ∀ a, formula.Within (k a)) : formula.Within (x >>= k) := by
  intro s place fault s' h
  simp only [Bind.bind, EStateM.bind] at h
  cases hxs : x s <;> rw [hxs] at h
  · exact hk _ _ _ _ _ h
  · cases h
    exact hx _ _ _ _ hxs

end Within

/-- The first of the arguments from the `k`-th on, and those behind it. -/
theorem arguments_of_drop {formula arg : Formula} {args : List Formula} {k : Nat}
    (h : formula.arguments.drop k = arg :: args) :
    formula.arguments[k]? = some arg ∧ formula.arguments.drop (k + 1) = args := by
  constructor
  · rw [← List.head?_drop, h, List.head?_cons]
  · rw [← List.tail_drop, h, List.tail_cons]

variable [Cell α] (I : Interpreter σ α)

mutual

/-- Evaluation stops at an operation of the formula, if it stops. -/
theorem evalAt_within (env : Bindings α) (formula : Formula) :
    formula.Within (formula.evalAt I env) := by
  cases formula with
  | var | lift | constant | truth | falsity | lifted | broken =>
      rw [evalAt]
      exact .here _
  | map op arg | fold agg axes arg | reshape shape axes arg | slice k arg | id arg | not arg
  | property which arg =>
      rw [evalAt]
      exact .bind (.inside rfl (evalAt_within env arg)) fun _ => .here _
  | map2 op left right | pairing which left right =>
      rw [evalAt]
      refine .bind (.inside rfl (evalAt_within env left)) fun _ => ?_
      exact .bind (.inside rfl (evalAt_within env right)) fun _ => .here _
  | dyad op left right =>
      rw [evalAt]
      refine .bind (.inside rfl (evalAt_within env left)) fun _ => .bind (.here _) fun _ => ?_
      exact .bind (.inside rfl (evalAt_within env right)) fun _ => .here _
  | reduce agg output op labels args | stack args =>
      rw [evalAt]
      exact .bind (evalAllAt_within env 0 args rfl) fun _ => .here _
  | connect op args | aggregate agg args =>
      rw [evalAt]
      exact .bind (evalScalarsAt_within env 0 args rfl) fun _ => .here _
  | given name value body =>
      rw [evalAt]
      refine .bind (.inside rfl (evalAt_within env value)) fun t => ?_
      exact .inside rfl (evalAt_within (env.insert name t) body)

theorem evalAllAt_within (env : Bindings α) {formula : Formula} (k : Nat)
    (args : List Formula) (hargs : formula.arguments.drop k = args) :
    formula.Within (evalAllAt I env k args) := by
  cases args with
  | nil => exact .pure _
  | cons arg args =>
      obtain ⟨harg, hrest⟩ := arguments_of_drop hargs
      refine .bind (.inside harg (evalAt_within env arg)) fun _ => ?_
      exact .bind (evalAllAt_within env (k + 1) args hrest) fun _ => .pure _

theorem evalScalarsAt_within (env : Bindings α) {formula : Formula} (k : Nat)
    (args : List Formula) (hargs : formula.arguments.drop k = args) :
    formula.Within (evalScalarsAt I env k args) := by
  cases args with
  | nil => exact .pure _
  | cons arg args =>
      obtain ⟨harg, hrest⟩ := arguments_of_drop hargs
      refine .bind (.inside harg (evalAt_within env arg)) fun _ => .bind (.here _) fun _ => ?_
      exact .bind (evalScalarsAt_within env (k + 1) args hrest) fun _ => .pure _

end

end Formula

/-! ## Two runs that stop at one place -/

namespace Link

variable {L : Link σ τ α β}

/-- Two ends of a computation that says where it stops: related results, or one failure
at one place. -/
def EndsAt (L : Link σ τ α β) (w : σ × τ) (Q : σ × τ → A → B → Prop) :
    EStateM.Result (Place × Fault) σ A → EStateM.Result (Place × Fault) τ B → Prop
  | .ok a s, .ok b t => L.Later w (s, t) ∧ Q (s, t) a b
  | .error f _, .error g _ => f = g ∨ L.Excused f.2
  | .error f _, .ok _ _ => L.Excused f.2
  | .ok _ _, .error _ _ => False

/-- The two computations end alike and in one place. -/
def FollowsAt (L : Link σ τ α β) (w : σ × τ) (Q : σ × τ → A → B → Prop) (x : Located σ A)
    (y : Located τ B) : Prop :=
  L.Valid w → L.EndsAt w Q (x w.1) (y w.2)

namespace FollowsAt

variable {w : σ × τ} {Q : σ × τ → A → B → Prop} {R : σ × τ → C → D → Prop}

theorem pure {a : A} {b : B} (h : Q w a b) : L.FollowsAt w Q (pure a) (pure b) :=
  fun hw => ⟨L.refl hw, h⟩

theorem bind {x : Located σ A} {y : Located τ B} {k : A → Located σ C}
    {l : B → Located τ D} (h : L.FollowsAt w Q x y)
    (hk : ∀ v a b, L.Later w v → Q v a b → L.FollowsAt v R (k a) (l b)) :
    L.FollowsAt w R (x >>= k) (y >>= l) := by
  intro hw
  have h := h hw
  simp only [Bind.bind, EStateM.bind]
  cases hx : x w.1 <;> cases hy : y w.2 <;> rw [hx, hy] at h
  case ok.ok a s b t =>
    have hnext := hk (s, t) a b h.1 h.2 (L.valid h.1)
    show L.EndsAt w R (k a s) (l b t)
    cases hka : k a s <;> cases hlb : l b t <;> rw [hka, hlb] at hnext
    case ok.ok => exact ⟨L.trans h.1 hnext.1, hnext.2⟩
    all_goals exact hnext
  case ok.error => exact h.elim
  case error.ok f s b t =>
    show L.EndsAt w R (.error f s) (l b t)
    cases l b t
    · exact h
    · exact .inr h
  case error.error => exact h

/-- An operation that follows its counterpart stops where its counterpart stops. -/
theorem here {x : Run σ A} {y : Run τ B} (h : L.Follows w Q x y) :
    L.FollowsAt w Q (Located.here x) (Located.here y) := by
  intro hw
  have h := h hw
  simp only [Located.here]
  cases hx : x w.1 <;> cases hy : y w.2 <;> rw [hx, hy] at h
  case error.error => exact h.imp_left (congrArg _)
  all_goals exact h

/-- Computations that end alike in one place end alike. -/
theorem forget {x : Located σ A} {y : Located τ B} (h : L.FollowsAt w Q x y) :
    L.Follows w Q (Located.forget x) (Located.forget y) := by
  intro hw
  have h := h hw
  simp only [Located.forget]
  cases hx : x w.1 <;> cases hy : y w.2 <;> rw [hx, hy] at h
  case error.error => exact h.imp_left (congrArg _)
  all_goals exact h

theorem inside (k : Nat) {x : Located σ A} {y : Located τ B} (h : L.FollowsAt w Q x y) :
    L.FollowsAt w Q (Located.inside k x) (Located.inside k y) := by
  intro hw
  have h := h hw
  simp only [Located.inside]
  cases hx : x w.1 <;> cases hy : y w.2 <;> rw [hx, hy] at h
  case error.error f s g t =>
    refine h.imp_left fun hfg => ?_
    rw [hfg]
  all_goals exact h

end FollowsAt

end Link

namespace Interpreter.Linked

open Link

variable [Cell α] [Cell β] {L : Link σ τ α β} {I : Interpreter σ α} {J : Interpreter τ β}

mutual

/-- The evaluations of a formula follow each other, place by place. -/
theorem evalAt (H : Linked L I J) {w : σ × τ} {env : Bindings α} {env' : Bindings β}
    (henv : L.AlikeBindings w env env') (formula : Formula) (hlinear : formula.linear) :
    L.FollowsAt w L.AlikeAt (formula.evalAt I env) (formula.evalAt J env') := by
  cases formula with
  | var name => exact .here (Follows.lift (henv.get name))
  | lift t => exact .here (H.liftTensor t)
  | constant shape value => exact .here (H.constant shape value)
  | truth => exact .here (scalar (H.lift w true))
  | falsity => exact .here (scalar (H.lift w false))
  | lifted value => exact .here (scalar (H.lift w value))
  | broken fault => exact .here (Follows.throw fault)
  | map op arg =>
      simp only [Formula.linear] at hlinear
      refine (FollowsAt.inside 0 (evalAt H henv arg hlinear)).bind fun v t u _ htu => ?_
      exact .here (H.map op htu)
  | map2 op left right =>
      simp only [Formula.linear, Bool.and_eq_true] at hlinear
      refine (FollowsAt.inside 0 (evalAt H henv left hlinear.1)).bind fun v t u hv htu => ?_
      refine (FollowsAt.inside 1 (evalAt H (henv.later hv) right hlinear.2)).bind
        fun v' t' u' hv' htu' => ?_
      exact .here (H.map2 op (htu.later hv') htu')
  | fold agg axes arg =>
      simp only [Formula.linear] at hlinear
      refine (FollowsAt.inside 0 (evalAt H henv arg hlinear)).bind fun v t u _ htu => ?_
      rw [Tensor.rank, Tensor.rank, ← htu.shape_eq]
      exact .here (H.fold agg _ htu)
  | reduce agg output op labels operands =>
      simp only [Formula.linear] at hlinear
      refine (evalAllAt H henv 0 operands hlinear).bind fun v ts us _ h => ?_
      exact .here (H.reduce agg output op (named h labels))
  | reshape shape axes arg =>
      simp only [Formula.linear, Bool.and_eq_true, decide_eq_true_eq] at hlinear
      refine (FollowsAt.inside 0 (evalAt H henv arg hlinear.2)).bind fun v t u _ htu => ?_
      exact .here (Follows.lift (htu.reshape shape hlinear.1))
  | slice k arg =>
      simp only [Formula.linear] at hlinear
      refine (FollowsAt.inside 0 (evalAt H henv arg hlinear)).bind fun v t u _ htu => ?_
      exact .here (follows_pick k htu)
  | stack parts =>
      simp only [Formula.linear] at hlinear
      refine (evalAllAt H henv 0 parts hlinear).bind fun v ts us _ h => ?_
      exact .here (Follows.stack H.wider persists_same h)
  | connect op args =>
      simp only [Formula.linear] at hlinear
      refine (evalScalarsAt H henv 0 args hlinear).bind fun v as bs _ h => ?_
      exact .here (scalar (H.connect op h))
  | aggregate agg args =>
      simp only [Formula.linear] at hlinear
      refine (evalScalarsAt H henv 0 args hlinear).bind fun v as bs _ h => ?_
      exact .here (scalar (H.aggregate agg h))
  | id arg =>
      simp only [Formula.linear] at hlinear
      refine (FollowsAt.inside 0 (evalAt H henv arg hlinear)).bind fun v t u _ htu => ?_
      exact .here (scalar (Relation.follows_toScalar htu))
  | not arg =>
      simp only [Formula.linear] at hlinear
      refine (FollowsAt.inside 0 (evalAt H henv arg hlinear)).bind fun v t u _ htu => ?_
      refine .here ((Relation.follows_toScalar htu).bind fun v' a b _ hab => ?_)
      exact scalar (H.neg hab)
  | dyad op left right =>
      simp only [Formula.linear, Bool.and_eq_true] at hlinear
      refine (FollowsAt.inside 0 (evalAt H henv left hlinear.1)).bind fun v t u hv htu => ?_
      refine (FollowsAt.here (Relation.follows_toScalar htu)).bind fun v₁ a b hv₁ hab => ?_
      have henv := (henv.later hv).later hv₁
      refine (FollowsAt.inside 1 (evalAt H henv right hlinear.2)).bind
        fun v₂ t' u' hv₂ htu' => ?_
      refine .here ((Relation.follows_toScalar htu').bind fun v₃ c d hv₃ hcd => ?_)
      exact scalar (H.combine op (L.same_later (L.trans hv₂ hv₃) hab) hcd)
  | property which arg =>
      simp only [Formula.linear] at hlinear
      refine (FollowsAt.inside 0 (evalAt H henv arg hlinear)).bind fun v t u _ htu => ?_
      exact .here (scalar (H.holds which htu))
  | pairing which left right =>
      simp only [Formula.linear, Bool.and_eq_true] at hlinear
      refine (FollowsAt.inside 0 (evalAt H henv left hlinear.1)).bind fun v t u hv htu => ?_
      refine (FollowsAt.inside 1 (evalAt H (henv.later hv) right hlinear.2)).bind
        fun v' t' u' hv' htu' => ?_
      exact .here (scalar (H.holdsOf which (htu.later hv') htu'))
  | given name value body =>
      simp only [Formula.linear, Bool.and_eq_true] at hlinear
      refine (FollowsAt.inside 0 (evalAt H henv value hlinear.1)).bind fun v t u hv htu => ?_
      exact .inside 1 (evalAt H ((henv.later hv).insert name htu) body hlinear.2)

theorem evalAllAt (H : Linked L I J) {w : σ × τ} {env : Bindings α} {env' : Bindings β}
    (henv : L.AlikeBindings w env env') (k : Nat) (formulas : List Formula)
    (hlinear : Formula.linearAll formulas) :
    L.FollowsAt w (fun v => List.Forall₂ (L.AlikeAt v)) (Formula.evalAllAt I env k formulas)
      (Formula.evalAllAt J env' k formulas) := by
  cases formulas with
  | nil => exact FollowsAt.pure .nil
  | cons formula formulas =>
      simp only [Formula.linearAll, Bool.and_eq_true] at hlinear
      refine (FollowsAt.inside k (evalAt H henv formula hlinear.1)).bind fun v t u hv htu => ?_
      refine (evalAllAt H (henv.later hv) (k + 1) formulas hlinear.2).bind
        fun v' ts us hv' h => ?_
      exact FollowsAt.pure (.cons (htu.later hv') h)

theorem evalScalarsAt (H : Linked L I J) {w : σ × τ} {env : Bindings α} {env' : Bindings β}
    (henv : L.AlikeBindings w env env') (k : Nat) (formulas : List Formula)
    (hlinear : Formula.linearAll formulas) :
    L.FollowsAt w (fun v => List.Forall₂ (L.Same v)) (Formula.evalScalarsAt I env k formulas)
      (Formula.evalScalarsAt J env' k formulas) := by
  cases formulas with
  | nil => exact FollowsAt.pure .nil
  | cons formula formulas =>
      simp only [Formula.linearAll, Bool.and_eq_true] at hlinear
      refine (FollowsAt.inside k (evalAt H henv formula hlinear.1)).bind fun v t u hv htu => ?_
      refine (FollowsAt.here (Relation.follows_toScalar htu)).bind fun v₁ a b hv₁ hab => ?_
      have henv := (henv.later hv).later hv₁
      refine (evalScalarsAt H henv (k + 1) formulas hlinear.2).bind fun v₂ as bs hv₂ h => ?_
      exact FollowsAt.pure (.cons (L.same_later hv₂ hab) h)

end

/-- The evaluations of a formula follow each other. -/
theorem eval (H : Linked L I J) {w : σ × τ} {env : Bindings α} {env' : Bindings β}
    (henv : L.AlikeBindings w env env') (formula : Formula) (hlinear : formula.linear) :
    L.Follows w L.AlikeAt (formula.eval I env) (formula.eval J env') := by
  rw [← Formula.forget_evalAt, ← Formula.forget_evalAt]
  exact (H.evalAt henv formula hlinear).forget

end Interpreter.Linked

end TensorLogic
