import TensorLogic.Proofs.Places
import TensorLogic.Proofs.Literals

/-!
# Compiling a formula

Evaluating a formula over literals only adds to the session: variables, and clauses
which every assignment of the old variables satisfies in exactly one way. In that
extension the literals of the result have the values that the formula has on truth
values (`compilation_conservative`). So the gates constrain nothing that was there
before, and nothing about them is left open.

The tensors bound to the variables may hold any literals of the session, negated or
repeated, and the session may hold anything before.
-/

namespace TensorLogic

open Cnf Link Clausal Faithful

variable {σ : Type} [Session σ] [Faithful σ]

namespace Tensor

/-- The same storage with other cells. -/
def recode {α β : Type} (f : α → β) (t : Tensor α) : Tensor β where
  shape := t.shape
  strides := t.strides
  offset := t.offset
  buffer := t.buffer.map f

theorem InBounds.recode {α β : Type} {t : Tensor α} (ht : t.InBounds) (f : α → β) :
    (t.recode f).InBounds where
  strides_length := ht.strides_length
  inside index hindex := by
    simpa [Tensor.recode] using ht.inside index hindex
  reach_lt := ht.reach_lt

theorem get_recode {α β : Type} {t : Tensor α} (ht : t.InBounds) (f : α → β)
    {index : Index} (hindex : index ∈ t.shape.indices) :
    ∃ a, t.get index = .ok a ∧ (t.recode f).get index = .ok (f a) := by
  have hlt := ht.inside index hindex
  refine ⟨t.buffer[t.offset + dot index t.strides], ?_, ?_⟩
  · rw [ht.get_eq hindex, InBounds.cellAt_ok hlt]
  · rw [(ht.recode f).get_eq hindex]
    simp [cellAt, Tensor.recode, hlt]

end Tensor

namespace Bindings

/-- Every bound tensor is in bounds, and its cells are literals of the first
`count` variables. -/
def Owned (count : Nat) (env : Bindings Literal) : Prop :=
  ∀ name t, env.find? name = some t → t.InBounds ∧
    ∀ index ∈ t.shape.indices, ∀ l, t.get index = .ok l → owns count l

/-- The same names bound to tensors of the same shapes, each cell of which is the truth
value of its literal. How the tensors are stored is left open. -/
def Reads (a : Assignment) (env : Bindings Literal) (env' : Bindings Bool) : Prop :=
  ∀ name, Option.Rel (Tensor.Alike fun l value => a.value l = .ok value)
    (env.find? name) (env'.find? name)

/-- What an assignment makes of the literals. -/
def truths (a : Assignment) (env : Bindings Literal) : Bindings Bool :=
  NameMap.map (Tensor.recode a.satisfies) env

theorem reads_truths {a : Assignment} {env : Bindings Literal}
    (h : env.Owned a.variables) : Reads a env (env.truths a) := by
  intro name
  rw [truths, NameMap.find?_map]
  cases hfind : env.find? name with
  | none => exact .none
  | some t =>
      obtain ⟨hbounds, howned⟩ := h name t hfind
      refine .some ⟨rfl, hbounds, hbounds.recode _, fun index hindex => ?_⟩
      obtain ⟨l, hl, hvalue⟩ := Tensor.get_recode hbounds a.satisfies hindex
      rw [hl, hvalue]
      exact Assignment.value_eq (howned index hindex l hl)

end Bindings

theorem Assignment.owns_of_value {a : Assignment} {l : Literal} {value : Bool}
    (h : a.value l = .ok value) : owns a.variables l ∧ a.satisfies l = value := by
  have hown : owns a.variables l := by
    rw [Assignment.value] at h
    split at h
    next => cases h
    next hne =>
        split at h
        next hsome =>
            obtain ⟨hlt, -⟩ := Array.getElem?_eq_some_iff.mp hsome
            exact owns_iff.mpr ⟨hne, Nat.le_of_pred_lt hlt⟩
        next => cases h
  rw [Assignment.value_eq hown] at h
  exact ⟨hown, by simpa using h⟩

/-- Bindings that read the literals off are bindings that stand for them. -/
theorem Bindings.Reads.alike {F : Cnf} {a : Assignment} {env : Bindings Literal}
    {env' : Bindings Bool} (h : Reads a env env') {s : σ} (hs : formula s = F)
    (ha : F.isModel a) : (standing F a).AlikeBindings (s, ()) env env' := by
  intro name
  match env.find? name, env'.find? name, h name with
  | _, _, .none => exact .none
  | _, _, .some htu =>
      refine .some (htu.mono fun l value hvalue => ?_)
      obtain ⟨hown, hsat⟩ := Assignment.owns_of_value hvalue
      have hvars : a.variables = (formula s).variables := by
        rw [(isModel_iff.mp ha).1, hs]
      refine ⟨hvars ▸ hown, fun b _ hba _ => ?_⟩
      rw [hba.satisfies_eq hown, hsat]

/-- Whatever the assignment, what it makes of literals of the session stands for them. -/
theorem Bindings.Owned.alike_truths {env : Bindings Literal} {s : σ}
    (h : env.Owned (formula s).variables) (a : Assignment) :
    (standing (formula s) a).AlikeBindings (s, ()) env (env.truths a) := by
  intro name
  rw [truths, NameMap.find?_map]
  cases hfind : env.find? name with
  | none => exact .none
  | some t =>
      obtain ⟨hbounds, howned⟩ := h name t hfind
      refine .some ⟨rfl, hbounds, hbounds.recode _, fun index hindex => ?_⟩
      obtain ⟨l, hl, hvalue⟩ := Tensor.get_recode hbounds a.satisfies hindex
      have hown := howned index hindex l hl
      rw [hl, hvalue]
      refine ⟨hown, fun b ha hba _ => hba.satisfies_eq ?_⟩
      rwa [(isModel_iff.mp ha).1]

/-- `b` continues `a` to the given number of variables and satisfies the clauses. -/
def Assignment.Completes (b a : Assignment) (count : Nat) (clauses : List Clause) : Prop :=
  b.Extends a ∧ b.variables = count ∧ ∀ clause ∈ clauses, clause.any b.satisfies

theorem Cnf.isModel_iff_completes {F F' : Cnf} {new : List Clause}
    (hnew : F'.clauses.toList = F.clauses.toList ++ new) {a b : Assignment}
    (ha : F.isModel a) :
    b.Extends a ∧ F'.isModel b ↔ b.Completes a F'.variables new := by
  rw [isModel_iff, hnew, Assignment.Completes]
  refine and_congr_right fun hba => and_congr_right fun _ => ?_
  constructor
  · exact fun hall clause hclause => hall clause (List.mem_append_right _ hclause)
  · intro hall clause hclause
    rcases List.mem_append.mp hclause with hclause | hclause
    · obtain ⟨l, hl, hsat⟩ := List.any_eq_true.mp ((isModel_iff.mp ha).2 clause hclause)
      exact List.any_eq_true.mpr ⟨l, hl, hba.satisfies_of hsat⟩
    · exact hall clause hclause

/-- A run over literals that returned, next to the run over truth values. -/
theorem eval_follows {expr : Formula} (hlinear : expr.linear) {env : Bindings Literal}
    {env' : Bindings Bool} {s s' : σ} {t : Tensor Literal} {a : Assignment}
    (henv : (standing (formula s) a).AlikeBindings (s, ()) env env')
    (heval : expr.eval literals env s = .ok t s') :
    Conservative (formula s) (formula s') ∧
      ∃ u, expr.eval truthValues env' () = .ok u () ∧
        (standing (formula s) a).AlikeAt (s', ()) t u := by
  have hends := literals_linked.eval henv expr hlinear (Conservative.refl _)
  rw [heval] at hends
  cases htruth : expr.eval truthValues env' () with
  | error fault s₁ =>
      rw [htruth] at hends
      exact hends.elim
  | ok u s₁ =>
      rw [htruth] at hends
      exact ⟨hends.1.2, u, rfl, hends.2⟩

theorem compute_follows {expr : Formula} (hlinear : expr.linear) {env : Bindings Literal}
    {env' : Bindings Bool} {s s' : σ} {l : Literal} {a : Assignment}
    (henv : (standing (formula s) a).AlikeBindings (s, ()) env env')
    (hcompute : expr.compute literals env s = .ok l s') :
    Conservative (formula s) (formula s') ∧
      ∃ value, Run.value (expr.compute truthValues env') = .ok value ∧
        (standing (formula s) a).Same (s', ()) l value := by
  obtain ⟨t, s₁, heval, h⟩ := Run.bind_eq_ok.mp hcompute
  obtain ⟨hl, rfl⟩ := Run.lift_eq_ok.mp h
  obtain ⟨hgrows, u, hu, htu⟩ := eval_follows hlinear henv heval
  obtain ⟨value, hvalue, hsame⟩ := htu.toScalar.ok_right hl
  refine ⟨hgrows, value, Run.value_eq_ok.mpr ?_, hsame⟩
  exact Run.bind_eq_ok.mpr ⟨u, (), hu, Run.lift_eq_ok.mpr ⟨hvalue, rfl⟩⟩

/-- Evaluating a formula over literals of a session, whatever the session holds, adds
variables and clauses. Every assignment that satisfied the old clauses is completed to
the new variables in exactly one way by the new clauses, and there the literals of the
result have the values that the formula has on the truth values of the old literals. -/
theorem compilation_conservative {expr : Formula} (hlinear : expr.linear)
    {env : Bindings Literal} {s s' : σ} {t : Tensor Literal}
    (howned : env.Owned (formula s).variables)
    (heval : expr.eval literals env s = .ok t s') :
    ∃ new : List Clause,
      (formula s').clauses.toList = (formula s).clauses.toList ++ new ∧
      (formula s).variables ≤ (formula s').variables ∧
      ∀ a, (formula s).isModel a →
        (∃ env', env.Reads a env') ∧
        ∃ b : Assignment, b.Completes a (formula s').variables new ∧
          (∀ c : Assignment, c.Completes a (formula s').variables new → c = b) ∧
          ∀ env', env.Reads a env' → ∃ u, expr.eval truthValues env' () = .ok u () ∧
            Tensor.Alike (fun l value => b.value l = .ok value) t u := by
  obtain ⟨hgrows, -⟩ := eval_follows hlinear (howned.alike_truths ⟨#[]⟩) heval
  obtain ⟨new, hnew, -⟩ := hgrows.added
  refine ⟨new, hnew, hgrows.grows, fun a ha => ⟨⟨env.truths a, ?_⟩, ?_⟩⟩
  · exact Bindings.reads_truths ((isModel_iff.mp ha).1 ▸ howned)
  · obtain ⟨b, hba, hb⟩ := hgrows.extends_model a ha
    refine ⟨b, (isModel_iff_completes hnew ha).mp ⟨hba, hb⟩, fun c hc => ?_, fun env' henv => ?_⟩
    · obtain ⟨hca, hc⟩ := (isModel_iff_completes hnew ha).mpr hc
      exact hgrows.unique ha hca hc hba hb
    · obtain ⟨-, u, hu, htu⟩ := eval_follows hlinear (henv.alike rfl ha) heval
      refine ⟨u, hu, htu.mono fun l value hsame => ?_⟩
      rw [Assignment.value_eq ((isModel_iff.mp hb).1 ▸ hsame.1), hsame.2 b ha hba hb]

/-- The literals `1`, `-2` and `1` again, bound to one name. -/
def threeLiterals : Bindings Literal where
  entries := [("x", { shape := [3], strides := [1], offset := 0, buffer := #[1, -2, 1] })]
  ordered := List.pairwise_singleton _ _

theorem threeLiterals_owned : threeLiterals.Owned 2 := by
  intro name t hfind
  simp only [threeLiterals, NameMap.find?, NameMap.lookup_cons, List.lookup_nil] at hfind
  split at hfind
  · cases hfind
    have hbounds : Tensor.InBounds
        ({ shape := [3], strides := [1], offset := 0, buffer := #[1, -2, 1] } :
          Tensor Literal) := by
      refine ⟨rfl, by decide, by decide⟩
    refine ⟨hbounds, fun index hindex l hl => ?_⟩
    obtain rfl | rfl | rfl : index = [0] ∨ index = [1] ∨ index = [2] := by
      simpa [Shape.indices, List.range_succ] using hindex
    all_goals
      cases hl
      decide
  · cases hfind

/-- A session of two variables that holds a clause. -/
def twoVariables : StandardSession :=
  { formula := ⟨2, #[[1, 2]]⟩ }

/-- Exactly one of the three literals. -/
def oneOfThree : Formula :=
  .fold .one none (.reshape [3] [.source 0] (.var "x"))

theorem oneOfThree_eval :
    ∃ t s', oneOfThree.eval literals threeLiterals twoVariables = .ok t s' :=
  Run.exists_of_returns (by decide +kernel)

theorem compilation_conservative_oneOfThree :
    oneOfThree.linear ∧ threeLiterals.Owned 2 ∧
      ∃ t s', oneOfThree.eval literals threeLiterals twoVariables = .ok t s' ∧
        ∃ new : List Clause, (formula s').clauses.toList = [[1, 2]] ++ new ∧
          ∃ b : Assignment, b.Completes ⟨#[true, false]⟩ (formula s').variables new := by
  obtain ⟨t, s', heval⟩ := oneOfThree_eval
  obtain ⟨new, hnew, -, hcompletes⟩ :=
    compilation_conservative (by decide) threeLiterals_owned heval
  obtain ⟨-, b, hb, -⟩ := hcompletes ⟨#[true, false]⟩ (isModel_iff.mpr ⟨rfl, by decide⟩)
  exact ⟨by decide, threeLiterals_owned, t, s', heval, new, hnew, b, hb⟩

end TensorLogic
