import TensorLogic.Proofs.Declared
import TensorLogic.Proofs.Places
import TensorLogic.Proofs.Slices

/-!
# Interpreters agree on failure

What a formula comes to, a tensor of some shape or a stop at some operation for some
reason, is settled by the formula, by the shapes of its variables and by the bytes that a
cell takes. Interpreters may compute with anything, do the aggregators their own way and
store their tensors as they like: as long as their operations return, none of that can show.
The proof puts every run next to one over truth values that are as wide as its cells, by a
link that compares no values at all (`shapeOnly`), so that nothing but shapes is left to
agree on.

Between cells of two widths there is the difference that it takes to run out of memory: for
the wider ones there may be no buffer where there is one for the others. That difference is
real. Truth values take one byte each, literals four (`outcomes_differ`).

Literals are different in one more respect. A session hands out finitely many of them, so
a run over literals may also stop because there are no more. Main statement:
`outcomes_agree`.
-/

namespace TensorLogic

open Link Faithful

variable {σ τ α β : Type}

/-! ## Outcomes -/

/-- What the evaluation of a formula can come to. -/
inductive Outcome where
  | shape (shape : Shape)
  | stops (place : Place) (fault : Fault)
  deriving DecidableEq, Repr

namespace Formula

variable [Cell α] {I : Interpreter σ α} {env : Bindings α} {formula : Formula} {s : σ}

/-- The evaluation comes to this: a tensor of the shape, or a failure for the reason, and
that at the operation at the place. -/
def Ends (I : Interpreter σ α) (env : Bindings α) (formula : Formula) (s : σ) :
    Outcome → Prop
  | .shape shape => ∃ t s', formula.eval I env s = .ok t s' ∧ t.shape = shape
  | .stops place fault => ∃ s', formula.eval I env s = .error fault s' ∧
      formula.evalAt I env s = .error (place, fault) s' ∧
      ∃ op, formula.part place = some op

/-- What the evaluation comes to. -/
def outcome (I : Interpreter σ α) (env : Bindings α) (formula : Formula) (s : σ) : Outcome :=
  match formula.evalAt I env s with
  | .ok t _ => .shape t.shape
  | .error (place, fault) _ => .stops place fault

theorem ends_outcome : formula.Ends I env s (formula.outcome I env s) := by
  have hforget := congrFun (forget_evalAt I env formula) s
  simp only [Located.forget] at hforget
  rw [outcome]
  cases hat : formula.evalAt I env s <;> rw [hat] at hforget
  case ok t s' => exact ⟨t, s', hforget.symm, rfl⟩
  case error stop s' => exact ⟨s', hforget.symm, hat, evalAt_within I env formula _ _ _ _ hat⟩

theorem ends_of_evalAt {place : Place} {fault : Fault} {s' : σ}
    (h : formula.evalAt I env s = .error (place, fault) s') :
    formula.Ends I env s (.stops place fault) := by
  have hends : formula.Ends I env s (formula.outcome I env s) := ends_outcome
  rwa [outcome, h] at hends

/-- It comes to nothing else. -/
theorem Ends.eq_outcome {outcome : Outcome} (h : formula.Ends I env s outcome) :
    outcome = formula.outcome I env s := by
  have hends : formula.Ends I env s (formula.outcome I env s) := ends_outcome
  cases outcome with
  | shape shape =>
      obtain ⟨t, s', ht, rfl⟩ := h
      cases hat : formula.outcome I env s <;> rw [hat] at hends
      case shape =>
        obtain ⟨u, s'', hu, rfl⟩ := hends
        rw [ht] at hu
        cases hu
        rfl
      case stops =>
        obtain ⟨s'', hfail, -⟩ := hends
        rw [ht] at hfail
        cases hfail
  | stops place fault =>
      obtain ⟨s', -, hat, -⟩ := h
      rw [Formula.outcome, hat]

/-- What the evaluation over truth values comes to that take so many bytes each. -/
def outcomeAt (width : Nat) (env : Bindings Bool) (formula : Formula) : Outcome :=
  letI : Cell Bool := ⟨width⟩
  formula.outcome truthValues env ()

/-- The value among truth values that take so many bytes each. -/
def valueAt (width : Nat) (env : Bindings Bool) (formula : Formula) : Except Fault Bool :=
  letI : Cell Bool := ⟨width⟩
  (formula.compute truthValues env).value

end Formula

/-- Linked interpreters come to one outcome, or the left one stops for a reason of its own. -/
theorem Interpreter.Linked.outcome_eq [Cell α] [Cell β] {L : Link σ τ α β} {I : Interpreter σ α}
    {J : Interpreter τ β} (H : Linked L I J) {s : σ} {t : τ} (hvalid : L.Valid (s, t))
    {env : Bindings α} {env' : Bindings β} (henv : L.AlikeBindings (s, t) env env')
    {formula : Formula} (hlinear : formula.linear) :
    formula.outcome I env s = formula.outcome J env' t ∨
      ∃ place fault, formula.outcome I env s = .stops place fault ∧ L.Excused fault := by
  have h := H.evalAt henv formula hlinear hvalid
  rw [Formula.outcome, Formula.outcome]
  cases hI : formula.evalAt I env s <;> cases hJ : formula.evalAt J env' t <;>
    rw [hI, hJ] at h
  case ok.ok => exact .inl (congrArg Outcome.shape h.2.shape_eq)
  case ok.error => exact h.elim
  case error.ok stop _ _ _ => exact .inr ⟨stop.1, stop.2, rfl, h⟩
  case error.error stop _ stop' _ =>
    rcases h with rfl | h
    · exact .inl rfl
    · exact .inr ⟨stop.1, stop.2, rfl, h⟩

/-- An interpreter in step with truth values comes to what truth values of its width come to,
or fails for a reason of its own. -/
theorem Interpreter.InStep.outcome_eq [Cell α] {L : Link σ Unit α Bool} {I : Interpreter σ α}
    (H : InStep L I truthValues) {s : σ} (hvalid : L.Valid (s, ())) {env : Bindings α}
    {env' : Bindings Bool} (henv : L.AlikeBindings (s, ()) env env') {formula : Formula}
    (hlinear : formula.linear) :
    formula.outcome I env s = formula.outcomeAt (Cell.width α) env' ∨
      ∃ place fault, formula.outcome I env s = .stops place fault ∧ L.Excused fault :=
  let : Cell Bool := ⟨Cell.width α⟩
  have hlinked : Linked L I truthValues := ⟨H, .of_eq rfl⟩
  hlinked.outcome_eq hvalid henv hlinear

/-! ## Interpreters whose operations return -/

/-- Nothing is compared but shapes, and neither side may fail by itself. -/
def Link.shapeOnly : Link σ τ α β where
  Valid _ := True
  Later _ _ := True
  Same _ _ _ := True
  Excused _ := False
  refl _ := trivial
  valid _ := trivial
  trans _ _ := trivial
  same_later _ h := h

/-- Each of the operations that an interpreter has to give returns from every state. -/
structure Gates.Total (g : Gates σ α) : Prop where
  lift : ∀ value s, ∃ a s', g.lift value s = .ok a s'
  neg : ∀ a s, ∃ b s', g.neg a s = .ok b s'
  conj : ∀ a b s, ∃ c s', g.conj a b s = .ok c s'
  disj : ∀ a b s, ∃ c s', g.disj a b s = .ok c s'
  equ : ∀ a b s, ∃ c s', g.equ a b s = .ok c s'

theorem Link.Follows.of_returns {w : σ × Unit} {x : Run σ α} {value : Bool}
    (h : ∀ s, ∃ a s', x s = .ok a s') :
    (shapeOnly : Link σ Unit α Bool).Follows w shapeOnly.Same x (Pure.pure value) := by
  intro _
  obtain ⟨a, s', hx⟩ := h w.1
  rw [hx]
  exact ⟨trivial, trivial⟩

namespace Gates.Total

variable {g : Gates σ α} (h : g.Total)

include h

theorem sound : Gates.Sound (shapeOnly (τ := Unit)) g where
  lift value := .of_returns (h.lift value)
  neg _ := .of_returns (h.neg _)
  conj _ _ := .of_returns (h.conj _ _)
  disj _ _ := .of_returns (h.disj _ _)
  equ _ _ := .of_returns (h.equ _ _)

/-- What the given operations are made into returns as well. -/
theorem inStep : Interpreter.InStep shapeOnly g.interpreter truthValues where
  lift _ := h.sound.lift
  neg := h.sound.neg
  conj := h.sound.conj
  disj := h.sound.disj
  equ := h.sound.equ
  imp := h.sound.imp
  all := h.sound.all
  any := h.sound.any
  one := h.sound.one
  eqs := h.sound.eqs h.sound.all

end Gates.Total

theorem truthValues_inStep : Interpreter.InStep shapeOnly truthValues truthValues where
  lift _ _ := Follows.pure trivial
  neg _ := Follows.pure trivial
  conj _ _ := Follows.pure trivial
  disj _ _ := Follows.pure trivial
  equ _ _ := Follows.pure trivial
  imp _ _ := Follows.pure trivial
  all _ := Follows.pure trivial
  any _ := Follows.pure trivial
  one _ := Follows.pure trivial
  eqs _ := Follows.pure trivial

/-! ## Bindings of given shapes -/

namespace Bindings

variable {shapes : NameMap Shape} {env : Bindings α} {env' : Bindings β}

/-- With cells that are there to be read, shapes are all that bindings have to share. -/
theorem Fit.alike (h : env.Fit shapes) (h' : env'.Fit shapes) (w : σ × τ) :
    shapeOnly.AlikeBindings w env env' := by
  intro name
  match shapes.find? name, env.find? name, env'.find? name, NameMap.Paired.find?_rel h name,
    NameMap.Paired.find?_rel h' name with
  | _, _, _, .none, .none => exact .none
  | _, _, _, .some ⟨ht, htb⟩, .some ⟨hu, hub⟩ =>
      refine .some ⟨ht.trans hu.symm, htb, hub, fun index hindex => ?_⟩
      obtain ⟨a, ha⟩ := htb.get_ok hindex
      obtain ⟨b, hb⟩ := hub.get_ok ((ht.trans hu.symm) ▸ hindex)
      rw [ha, hb]
      exact trivial

/-- The declared variables with every cell false. -/
def blank (shapes : NameMap Shape) : Bindings Bool :=
  shapes.map fun shape => Tensor.constant shape false

theorem blank_fit (shapes : NameMap Shape) : (blank shapes).Fit shapes := by
  rw [Fit, NameMap.Paired, blank, NameMap.map, List.forall₂_map_right_iff]
  exact List.forall₂_same.mpr fun declaration _ =>
    ⟨rfl, rfl, (Tensor.constant_spec declaration.2 false).1⟩

/-- Bindings that list literals of a session are bindings of literals of the session. -/
theorem Listed.owned_entries {declared : List (String × Shape)}
    {entries : List (String × Tensor Literal)} {cells : List Literal} {count : Nat}
    (h : Listed declared entries cells) (howned : ∀ l ∈ cells, Cnf.owns count l) :
    List.Forall₂ (fun d e => d.1 = e.1 ∧ e.2.InBounds ∧
      ∀ index ∈ e.2.shape.indices, ∀ l, e.2.get index = .ok l → Cnf.owns count l)
      declared entries := by
  induction h with
  | nil => exact .nil
  | @cons name shape t cells rest declared entries h _ ih =>
      obtain ⟨hcells, hrest⟩ := List.forall_mem_append.mp howned
      refine .cons ⟨rfl, h.bounds, fun index hindex l hl => ?_⟩ (ih hrest)
      obtain ⟨cell, hcell, hget⟩ :=
        (exists_of_forall₂ h.reads).1 index (h.shape_eq ▸ hindex)
      rw [hl] at hget
      cases hget
      exact hcells l hcell

theorem Fit.truths {env : Bindings Literal} (h : env.Fit shapes) (a : Assignment) :
    (env.truths a).Fit shapes := by
  rw [Fit, NameMap.Paired, Bindings.truths, NameMap.map, List.forall₂_map_right_iff]
  exact List.Forall₂.imp
    (fun _ _ hde => ⟨hde.1, hde.2.1, hde.2.2.recode a.satisfies⟩) h

end Bindings

/-- Allocation gives each declared variable a tensor of its shape, over literals that the
session has handed out by then. -/
theorem allocate_fit [Session σ] [Faithful σ] {p : Problem}
    {literals : Bindings Literal} {s s₀ : σ} (h : p.allocate s = .ok literals s₀) :
    literals.Fit p.shapes ∧ literals.Owned (formula s₀).variables := by
  obtain ⟨-, hlisted, hformula⟩ := Problem.allocate_ok h
  have howned : ∀ l ∈ literalsFrom ((formula s).variables + 1) p.declaredCells,
      Cnf.owns (formula s₀).variables l := by
    intro l hl
    obtain ⟨v, hv, rfl⟩ := List.mem_map.mp hl
    obtain ⟨hfirst, hlast⟩ := List.mem_range'_1.mp hv
    rw [hformula]
    exact owns_natCast (by omega) (by simp only; omega)
  refine ⟨hlisted.fit, fun name t hfind => ?_⟩
  have hpaired : p.shapes.Paired (fun _ t => t.InBounds ∧
      ∀ index ∈ t.shape.indices, ∀ l, t.get index = .ok l →
        Cnf.owns (formula s₀).variables l) literals := hlisted.owned_entries howned
  match p.shapes.find? name, literals.find? name, hpaired.find?_rel name, hfind with
  | _, _, .some hentry, rfl => exact hentry

/-- What the formula of the problem comes to on false cells, and so on any, among truth values
that take so many bytes each. -/
def Problem.outcome (p : Problem) (width : Nat) : Outcome :=
  p.formula.outcomeAt width (Bindings.blank p.shapes)

section

variable {p : Problem} (hlinear : p.formula.linear)
include hlinear

theorem outcome_truthValues (width : Nat) {env : Bindings Bool} (henv : env.Fit p.shapes) :
    p.formula.outcomeAt width env = p.outcome width := by
  let : Cell Bool := ⟨width⟩
  have hblank := Bindings.blank_fit p.shapes
  rcases truthValues_inStep.outcome_eq (s := ()) trivial (henv.alike hblank _) hlinear
    with h | ⟨_, _, -, hexcused⟩
  · exact h
  · exact hexcused.elim

theorem outcome_gates [Cell β] {g : Gates τ β} (hg : g.Total) {env : Bindings β}
    (henv : env.Fit p.shapes) (t : τ) :
    p.formula.outcome g.interpreter env t = p.outcome (Cell.width β) := by
  have hblank := Bindings.blank_fit p.shapes
  rcases hg.inStep.outcome_eq trivial (henv.alike hblank _) hlinear
    with h | ⟨_, _, -, hexcused⟩
  · exact h
  · exact hexcused.elim

theorem outcome_literals [Session σ] [Faithful σ] {literals : Bindings Literal} {s s₀ : σ}
    (h : p.allocate s = .ok literals s₀) :
    p.formula.outcome Clausal.literals literals s₀ = p.outcome (Cell.width Literal) ∨
      ∃ place n, p.formula.outcome Clausal.literals literals s₀ =
        .stops place (.trapped (.literalRange n)) := by
  obtain ⟨hfit, howned⟩ := allocate_fit h
  let a : Assignment := ⟨#[]⟩
  have hvalid : (Clausal.standing (formula s₀) a).Valid (s₀, ()) := Cnf.Conservative.refl _
  rcases Clausal.literals_inStep.outcome_eq hvalid (howned.alike_truths a) hlinear
    with heq | ⟨place, _, hstops, n, rfl⟩
  · exact .inl (heq.trans (outcome_truthValues hlinear _ (hfit.truths a)))
  · exact .inr ⟨place, n, hstops⟩

/-- Wider cells make no difference unless there is no memory for them. -/
theorem outcome_wider {narrow wide : Nat} (hle : narrow ≤ wide) :
    p.outcome wide = p.outcome narrow ∨
      ∃ place fault, p.outcome wide = .stops place fault ∧ Size.Lacks narrow wide fault := by
  have hlinked := @Interpreter.InStep.linked _ _ _ _ _ _ _ truthValues_inStep ⟨wide⟩ ⟨narrow⟩ hle
  have hblank := Bindings.blank_fit p.shapes
  have heq := @Interpreter.Linked.outcome_eq _ _ _ _ ⟨wide⟩ ⟨narrow⟩ _ _ _ hlinked () () trivial
    _ _ (hblank.alike hblank ((), ())) _ hlinear
  rcases heq with h | ⟨place, fault, hstops, hexcused | hlacks⟩
  · exact .inl h
  · exact hexcused.elim
  · exact .inr ⟨place, fault, hstops, hlacks⟩

end

/-- A formula that has a value, whatever the cells, is compiled, unless the session runs
out of literals. -/
theorem compile_returns [Session σ] [Faithful σ] {p : Problem} (hlinear : p.formula.linear)
    {literals : Bindings Literal} {s s₀ : σ} (h : p.allocate (Session.clear s) = .ok literals s₀)
    (htruth : ∀ env : Solution, env.Fit p.shapes →
      ∃ value, p.formula.valueAt (Cell.width Literal) env = .ok value) :
    (∃ s', p.compile s = .ok literals s') ∨
      ∃ n s', p.compile s = .error (.trapped (.literalRange n)) s' := by
  obtain ⟨hfit, howned⟩ := allocate_fit h
  let a : Assignment := ⟨#[]⟩
  obtain ⟨value, hvalue⟩ := htruth _ (hfit.truths a)
  let : Cell Bool := ⟨Cell.width Literal⟩
  have hlinked : Interpreter.Linked (Clausal.standing (formula s₀) a)
      (Clausal.literals (σ := σ)) truthValues := ⟨Clausal.literals_inStep, .of_eq rfl⟩
  have hfollows : (Clausal.standing (formula s₀) a).Follows (s₀, ()) (Clausal.standing _ a).Same
      (p.formula.compute Clausal.literals literals)
      (p.formula.compute truthValues (literals.truths a)) :=
    (hlinked.eval (howned.alike_truths a) p.formula hlinear).bind
      fun _ _ _ _ htu => Follows.lift htu.toScalar
  have hends := hfollows (Cnf.Conservative.refl _)
  rw [Run.value_eq_ok.mp hvalue] at hends
  cases hcompute : p.formula.compute Clausal.literals literals s₀ with
  | ok holds s₁ =>
      rw [hcompute] at hends
      obtain ⟨s₂, hensure, -⟩ := ensure_spec s₁ [holds] (by simpa using hends.2.1)
      refine .inl ⟨s₂, Run.bind_eq_ok.mpr ⟨(), Session.clear s, rfl, ?_⟩⟩
      refine Run.bind_eq_ok.mpr ⟨literals, s₀, h, ?_⟩
      refine Run.bind_eq_ok.mpr ⟨holds, s₁, hcompute, ?_⟩
      exact Run.bind_eq_ok.mpr ⟨(), s₂, hensure, rfl⟩
  | error fault s₁ =>
      rw [hcompute] at hends
      obtain ⟨n, rfl⟩ := hends
      have hclear : (modify Session.clear : Run σ PUnit) s = .ok () (Session.clear s) := rfl
      refine .inr ⟨n, s₁, ?_⟩
      simp only [Problem.compile, bind, EStateM.bind, hclear, h, hcompute]

/-- A conjunction whose right side negates two values at once. -/
def oddArity : Problem where
  shapes := { entries := [("x", [1, 2])], ordered := List.pairwise_singleton _ _ }
  formula := .dyad .and (.fold .any none (.var "x")) (.connect .not [.truth, .falsity])

/-- The literals of its cells, in a session that was empty before. -/
def oddArityLiterals : Bindings Literal where
  entries := [("x", { shape := [1, 2], strides := [2, 1], offset := 0, buffer := #[1, 2] })]
  ordered := List.pairwise_singleton _ _

theorem oddArity_allocate : oddArity.allocate ({} : StandardSession) =
    .ok oddArityLiterals { formula := { «variables» := 2 } } :=
  rfl

/-- Two lines, each of which stores one cell. -/
def lines (n : Nat) : List (Tensor Bool) :=
  [.constant [n] true, .constant [n] true]

theorem scalar_lines_evalAt {n : Nat} (h : Shape.Fillable [n, 2] Bool) :
    (Formula.id (.stack [.constant [n] true, .constant [n] true])).evalAt truthValues .empty () =
      .error ([], .refused (.notScalar [n, 2])) () := by
  have hlines : ∀ line ∈ lines n, line = .constant [n] true := by simp [lines]
  have hshapes : ∀ line ∈ lines n, line.shape = [n] := by
    intro line hline
    rw [hlines line hline]
    rfl
  have h : Shape.Fillable ([n] ++ [(lines n).length]) Bool := h
  obtain ⟨u, hu⟩ := h.stack_ok (List.cons_ne_nil _ _) hshapes fun line hline =>
    hlines line hline ▸ (Tensor.constant_spec [n] true).1.readable
  obtain ⟨hshape, -⟩ := Tensor.stack_cells hu hshapes
  have hscalar : u.toScalar = .error (.refused (.notScalar [n, 2])) := by
    rw [Tensor.toScalar, Tensor.rank, hshape]
    rfl
  have hstack : (Formula.stack [.constant [n] true, .constant [n] true]).evalAt truthValues
      .empty () = .ok u () := by
    show Located.here (liftM (Tensor.stack (lines n)) : Run Unit (Tensor Bool)) () = _
    rw [hu]
    rfl
  rw [Formula.evalAt]
  simp only [bind, EStateM.bind, Located.inside, hstack, Located.here, hscalar]
  rfl

/-- A scalar is asked for where there are two long lines. -/
def twoLines : Problem where
  shapes := .empty
  formula := .id (.stack [.constant [1152921504606846976] true,
    .constant [1152921504606846976] true])

end TensorLogic
