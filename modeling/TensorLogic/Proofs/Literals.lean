import TensorLogic.Proofs.Aggregators
import TensorLogic.Proofs.Faithful
import TensorLogic.Proofs.Linked

/-!
# Literals in lockstep with truth values

Fix a model of what a session holds. While gates are added, exactly one model of the
session goes on from it, so each literal has a value by then: the one that it has in
that model. That is how the interpreter of literals is linked with the interpreter of
truth values (`literals_linked`): what one computes stands for what the other computes,
and the only thing that can keep literals from following is that the session runs out
of them.
-/

namespace TensorLogic

open Cnf Link

variable {σ : Type} [Session σ] [Faithful σ]

namespace Clausal

/-- A fresh literal with clauses that say what it stands for. -/
def gate (clauses : Literal → List Clause) : Run σ Literal := do
  let out ← Session.allocate
  (clauses out).forM Session.ensure
  pure out

section

omit [Faithful σ]

theorem lift_eq (value : Bool) : (lift value : Run σ Literal) = gate (liftClauses value) := by
  simp [lift, gate, liftClauses]

theorem andGate_eq (inputs : List Literal) :
    (andGate inputs : Run σ Literal) = gate (andClauses inputs) := by
  simp [andGate, gate, andClauses]

theorem orGate_eq (inputs : List Literal) :
    (orGate inputs : Run σ Literal) = gate (orClauses inputs) := by
  simp [orGate, gate, orClauses]

theorem equGate_eq (a b : Literal) :
    (equGate a b : Run σ Literal) = gate (equClauses a b) := by
  simp [equGate, gate, equClauses]

end

open Faithful

/-- Clauses over the variables of a session are all taken up. -/
theorem ensureAll_spec (clauses : List Clause) (s : σ)
    (howned : ∀ clause ∈ clauses, clause.all (owns (formula s).variables)) :
    ∃ s', (clauses.forM Session.ensure : Run σ Unit) s = .ok () s' ∧
      (formula s').variables = (formula s).variables ∧
      (formula s').clauses.toList = (formula s).clauses.toList ++ clauses := by
  induction clauses generalizing s with
  | nil => exact ⟨s, rfl, rfl, by simp⟩
  | cons clause clauses ih =>
      obtain ⟨s₁, hensure, hformula⟩ := ensure_spec s clause (howned clause List.mem_cons_self)
      have hvars : (formula s₁).variables = (formula s).variables := by rw [hformula, Cnf.ensure]
      obtain ⟨s₂, hrest, hvars', hclauses⟩ := ih s₁ fun other hother => by
        rw [hvars]
        exact howned other (List.mem_cons_of_mem _ hother)
      refine ⟨s₂, ?_, hvars'.trans hvars, ?_⟩
      · show (Session.ensure clause >>= fun _ => clauses.forM Session.ensure) s = _
        exact Run.bind_eq_ok.mpr ⟨(), s₁, hensure, hrest⟩
      · rw [hclauses, hformula, Cnf.ensure]
        simp

/-- A gate extends the formula by one variable and by its clauses. -/
theorem gate_spec {clauses : Literal → List Clause} {inputs : List Literal}
    {f : List Bool → Bool} (h : Defines clauses inputs f) (s : σ)
    (hinputs : ∀ x ∈ inputs, owns (formula s).variables x) :
    (∃ s', gate clauses s = .ok (formula s).fresh s' ∧
      (formula s').variables = (formula s).variables + 1 ∧
      (formula s').clauses.toList =
        (formula s).clauses.toList ++ clauses (formula s).fresh) ∨
    ∃ n s', gate clauses s = .error (.trapped (.literalRange n)) s' := by
  rcases allocate_spec s with ⟨s₁, hallocate, hformula⟩ | ⟨n, s₁, hallocate⟩
  · have hvars : (formula s₁).variables = (formula s).variables + 1 := by
      rw [hformula, Cnf.allocate]
    obtain ⟨s₂, hensure, hvars', hclauses⟩ :=
      ensureAll_spec (clauses (formula s).fresh) s₁ fun clause hclause => by
        rw [hvars]
        refine h.owned (owns_fresh _) (fun x hx => ?_) clause hclause
        exact owns_mono (Nat.le_succ _) (hinputs x hx)
    refine .inl ⟨s₂, ?_, hvars'.trans hvars, by rw [hclauses, hformula, Cnf.allocate]⟩
    refine Run.bind_eq_ok.mpr ⟨_, s₁, hallocate, ?_⟩
    exact Run.bind_eq_ok.mpr ⟨(), s₂, hensure, rfl⟩
  · refine .inr ⟨n, s₁, ?_⟩
    simp only [gate, bind, EStateM.bind, hallocate]

/-- What literals stand for, while sessions grow from the formula `F` and `a` is a model
of it. -/
def standing (F : Cnf) (a : Assignment) : Link σ Unit Literal Bool where
  Valid w := Conservative F (formula w.1)
  Later v w := Conservative F (formula v.1) ∧ Conservative (formula v.1) (formula w.1)
  Same w l value := owns (formula w.1).variables l ∧
    ∀ b, F.isModel a → b.Extends a → (formula w.1).isModel b → b.satisfies l = value
  Excused fault := ∃ n, fault = .trapped (.literalRange n)
  refl hw := ⟨hw, .refl _⟩
  valid hlater := hlater.1.trans hlater.2
  trans huv hvw := ⟨huv.1, huv.2.trans hvw.2⟩
  same_later := by
    intro v w l value hlater hsame
    refine ⟨owns_mono hlater.2.grows hsame.1, fun b ha hba hb => ?_⟩
    obtain ⟨c, hca, hbc, hc⟩ := hlater.1.exists_between hlater.2 ha hba hb
    have hown : owns c.variables l := (isModel_iff.mp hc).1 ▸ hsame.1
    rw [hbc.satisfies_eq hown]
    exact hsame.2 c ha hca hc

variable {F : Cnf} {a : Assignment} {w : σ × Unit}

/-- A gate stands for the value that it computes of what its inputs stand for. -/
theorem gate_follows {clauses : Literal → List Clause} {inputs : List Literal}
    {f : List Bool → Bool} (h : Defines clauses inputs f) {values : List Bool}
    (hinputs : List.Forall₂ ((standing F a).Same w) inputs values) :
    (standing F a).Follows w (standing F a).Same (gate clauses) (pure (f values)) := by
  intro hvalid
  have howned : ∀ x ∈ inputs, owns (formula w.1).variables x := by
    intro x hx
    obtain ⟨value, -, hsame⟩ := (exists_of_forall₂ hinputs).1 x hx
    exact hsame.1
  rcases gate_spec h w.1 howned with ⟨s', hgate, hvars, hclauses⟩ | ⟨n, s', hgate⟩
  · rw [hgate]
    have hgrows : Conservative (formula w.1) (formula s') :=
      h.conservative howned hvars hclauses
    refine ⟨⟨hvalid, hgrows⟩, by rw [hvars]; exact owns_fresh _, fun b ha hba hb => ?_⟩
    rw [h.satisfies_fresh howned hvars hclauses hb]
    refine congrArg f ?_
    have hlater : (standing F a).Later w (s', w.2) := ⟨hvalid, hgrows⟩
    have hinputs := persists_same.forall₂ hlater hinputs
    rw [← List.forall₂_eq_eq_eq, List.forall₂_map_left_iff]
    exact hinputs.imp fun _ _ hx => hx.2 b ha hba hb
  · rw [hgate]
    exact ⟨n, rfl⟩

theorem same_neg {l : Literal} {value : Bool} (h : (standing F a).Same w l value) :
    (standing F a).Same w (-l) (!value) := by
  refine ⟨owns_neg h.1, fun b ha hba hb => ?_⟩
  have hown : owns b.variables l := (isModel_iff.mp hb).1 ▸ h.1
  rw [Assignment.satisfies_neg hown, h.2 b ha hba hb]

section

variable {ls : List Literal} {values : List Bool}
  (h : List.Forall₂ ((standing F a).Same w) ls values)

include h

theorem andGate_follows : (standing F a).Follows w (standing F a).Same (andGate ls)
    (pure (values.all fun value => value)) := by
  rw [andGate_eq]
  exact gate_follows (defines_and ls) h

theorem orGate_follows : (standing F a).Follows w (standing F a).Same (orGate ls)
    (pure (values.any fun value => value)) := by
  rw [orGate_eq]
  exact gate_follows (defines_or ls) h

end

theorem lift_follows (value : Bool) :
    (standing F a).Follows w (standing F a).Same (lift value) (pure value) := by
  rw [lift_eq]
  exact gate_follows (defines_lift value) .nil

theorem equGate_follows {l l' : Literal} {value value' : Bool}
    (h : (standing F a).Same w l value) (h' : (standing F a).Same w l' value') :
    (standing F a).Follows w (standing F a).Same (equGate l l') (pure (value == value')) := by
  have hgate := gate_follows (defines_equ l l') (.cons h (.cons h' .nil))
  rw [neighboursAgree, neighboursAgree, Bool.and_true] at hgate
  · rw [equGate_eq]
    exact hgate
  · simp

theorem gates_sound : Gates.Sound (standing F a) (gates (σ := σ)) where
  lift := lift_follows
  neg h := Follows.pure (same_neg h)
  conj h h' := by
    have hgate := andGate_follows (.cons h (.cons h' .nil))
    rw [List.all_cons, List.all_cons, List.all_nil, Bool.and_true] at hgate
    exact hgate
  disj h h' := by
    have hgate := orGate_follows (.cons h (.cons h' .nil))
    rw [List.any_cons, List.any_cons, List.any_nil, Bool.or_false] at hgate
    exact hgate
  equ := equGate_follows

theorem all_follows {ls : List Literal} {values : List Bool}
    (h : List.Forall₂ ((standing F a).Same w) ls values) :
    (standing F a).Follows w (standing F a).Same (all ls)
      (pure (values.all fun value => value)) := by
  match ls, values, h with
  | [], [], _ => exact lift_follows true
  | [_], [_], .cons h _ =>
      rw [List.all_cons, List.all_nil, Bool.and_true]
      exact Follows.pure h
  | _ :: _ :: _, _, h => exact andGate_follows h

theorem any_follows {ls : List Literal} {values : List Bool}
    (h : List.Forall₂ ((standing F a).Same w) ls values) :
    (standing F a).Follows w (standing F a).Same (any ls)
      (pure (values.any fun value => value)) := by
  match ls, values, h with
  | [], [], _ => exact lift_follows false
  | [_], [_], .cons h _ =>
      rw [List.any_cons, List.any_nil, Bool.or_false]
      exact Follows.pure h
  | _ :: _ :: _, _, h => exact orGate_follows h

theorem literals_inStep :
    Interpreter.InStep (standing F a) (literals (σ := σ)) truthValues where
  lift _ := lift_follows
  neg := gates_sound.neg
  conj := gates_sound.conj
  disj := gates_sound.disj
  equ := gates_sound.equ
  imp h h' := by
    have hgate := orGate_follows (.cons (same_neg h) (.cons h' .nil))
    rw [List.any_cons, List.any_cons, List.any_nil, Bool.or_false] at hgate
    exact hgate
  all := all_follows
  any := any_follows
  one := gates_sound.one
  eqs := gates_sound.eqs all_follows

theorem literals_linked : Interpreter.Linked
    ((standing F a).excusing (Size.Lacks (Cell.width Bool) (Cell.width Literal)))
    (literals (σ := σ)) truthValues :=
  literals_inStep.linked (by decide)

end Clausal

end TensorLogic
