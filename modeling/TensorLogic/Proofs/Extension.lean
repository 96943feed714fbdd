import Mathlib.Data.List.Infix
import TensorLogic.Cnf

/-!
# Formulas that extend each other

A formula grows by variables and clauses. It grows conservatively if every model
that it had extends to the new variables in exactly one way. So nothing is said
about the old variables, and nothing is left open about the new ones.

That is transitive, which takes some care: a model of the last formula has to be
cut back to one of the formula in between. The clauses in between hold of the part
that is left because they name variables of that part only, or because they held of
the first assignment to begin with.
-/

namespace TensorLogic

namespace Literal

variable {l : Literal}

theorem var_ne_zero (h : l ≠ 0) : l.var ≠ 0 :=
  Int.natAbs_ne_zero.mpr h

@[simp] theorem var_neg (l : Literal) : (-l).var = l.var :=
  Int.natAbs_neg l

theorem var_natCast (n : Nat) : (n : Literal).var = n :=
  Int.natAbs_natCast n

@[simp] theorem neg_eq_zero : -l = 0 ↔ l = 0 :=
  Int.neg_eq_zero

theorem natCast_pos {n : Nat} (h : 0 < n) : (n : Literal) > 0 :=
  Int.natCast_pos.mpr h

theorem ne_zero_of_pos (h : l > 0) : l ≠ 0 :=
  Int.ne_of_gt h

/-- Of a literal and its negation one is positive. -/
theorem decide_neg_pos (h : l ≠ 0) : decide (-l > 0) = !decide (l > 0) := by
  have hsign : ∀ i : Int, i ≠ 0 → (-i > 0 ↔ ¬i > 0) := by omega
  rw [Bool.eq_iff_iff, decide_eq_true_iff, Bool.not_eq_true', decide_eq_false_iff_not]
  exact hsign l h

end Literal

namespace Cnf

theorem owns_iff {n : Nat} {l : Literal} : owns n l ↔ l ≠ 0 ∧ l.var ≤ n := by
  simp [owns]

theorem owns_mono {m n : Nat} (h : m ≤ n) {l : Literal} (hl : owns m l) : owns n l := by
  rw [owns_iff] at hl ⊢
  exact ⟨hl.1, hl.2.trans h⟩

theorem owns_neg {n : Nat} {l : Literal} (hl : owns n l) : owns n (-l) := by
  simpa [owns] using hl

end Cnf

namespace Assignment

variable {a b c : Assignment} {l : Literal}

/-- `a` gives the variables of `b` their values, and goes on. -/
def Extends (a b : Assignment) : Prop :=
  b.values.toList <+: a.values.toList

theorem length_values (a : Assignment) : a.values.toList.length = a.variables :=
  rfl

theorem Extends.refl (a : Assignment) : a.Extends a :=
  List.prefix_refl _

theorem Extends.trans (h : a.Extends b) (h' : b.Extends c) : a.Extends c :=
  List.IsPrefix.trans h' h

theorem Extends.variables_le (h : a.Extends b) : b.variables ≤ a.variables :=
  List.IsPrefix.length_le h

theorem Extends.eq (h : a.Extends b) (hsize : a.variables ≤ b.variables) : a = b := by
  have hlist := List.IsPrefix.eq_of_length_le h hsize
  cases a
  cases b
  simpa using hlist.symm

theorem Extends.of_le (hb : a.Extends b) (hc : a.Extends c) (h : c.variables ≤ b.variables) :
    b.Extends c :=
  List.prefix_of_prefix_length_le hc hb h

theorem lt_variables (hl : Cnf.owns a.variables l) : l.var - 1 < a.values.size := by
  obtain ⟨hne, hle⟩ := Cnf.owns_iff.mp hl
  exact (Nat.sub_one_lt (Literal.var_ne_zero hne)).trans_le hle

theorem satisfies_iff (hl : Cnf.owns a.variables l) :
    a.satisfies l =
      (getElem a.values (l.var - 1) (lt_variables hl) == decide (l > 0)) := by
  rw [satisfies, Array.getElem?_eq_getElem (lt_variables hl)]
  simp [(Cnf.owns_iff.mp hl).1]

theorem Extends.satisfies_eq (h : a.Extends b) (hl : Cnf.owns b.variables l) :
    a.satisfies l = b.satisfies l := by
  rw [satisfies_iff hl, satisfies_iff (Cnf.owns_mono h.variables_le hl)]
  have hget := List.IsPrefix.getElem h (lt_variables hl)
  simp only [Array.getElem_toList] at hget
  rw [hget]

/-- What a shorter assignment makes true stays true. -/
theorem Extends.satisfies_of (h : a.Extends b) (hl : b.satisfies l = true) :
    a.satisfies l = true := by
  rw [h.satisfies_eq, hl]
  simp only [satisfies, Bool.and_eq_true, ne_eq, beq_iff_eq, decide_eq_true_eq] at hl
  obtain ⟨hlt, -⟩ := Array.getElem?_eq_some_iff.mp hl.2
  exact Cnf.owns_iff.mpr ⟨hl.1, by rw [Assignment.variables]; omega⟩

theorem satisfies_neg (hl : Cnf.owns a.variables l) : a.satisfies (-l) = !a.satisfies l := by
  rw [satisfies_iff hl, satisfies_iff (Cnf.owns_neg hl)]
  simp only [Literal.var_neg, Literal.decide_neg_pos (Cnf.owns_iff.mp hl).1]
  cases getElem a.values (l.var - 1) (lt_variables hl) <;> cases decide (l > 0) <;> rfl

/-- On literals that it covers, an assignment gives the value that it satisfies. -/
theorem value_eq (hl : Cnf.owns a.variables l) : a.value l = .ok (a.satisfies l) := by
  rw [value, if_neg (Cnf.owns_iff.mp hl).1, satisfies_iff hl,
    Array.getElem?_eq_getElem (lt_variables hl)]

end Assignment

namespace Cnf

variable {F F' F'' : Cnf} {a : Assignment}

theorem isModel_iff : F.isModel a ↔
    a.variables = F.variables ∧ ∀ clause ∈ F.clauses.toList, clause.any a.satisfies := by
  simp only [isModel, Bool.and_eq_true, beq_iff_eq, Array.all_eq_true', Array.mem_toList_iff]

theorem isModel_ensure {clause : Clause} :
    (F.ensure clause).isModel a ↔ F.isModel a ∧ clause.any a.satisfies := by
  simp only [isModel_iff, ensure, Array.toList_push, List.forall_mem_append,
    List.forall_mem_singleton, and_assoc]

/-- `F'` adds variables and clauses to `F`, and each model of `F` is continued by
exactly one of `F'`. -/
structure Conservative (F F' : Cnf) : Prop where
  grows : F.variables ≤ F'.variables
  added : ∃ clauses, F'.clauses.toList = F.clauses.toList ++ clauses ∧
    ∀ clause ∈ clauses, clause.all (owns F'.variables)
  extends_model : ∀ a, F.isModel a → ∃ b, b.Extends a ∧ F'.isModel b
  unique : ∀ {a b c}, F.isModel a → b.Extends a → F'.isModel b → c.Extends a →
    F'.isModel c → b = c

namespace Conservative

theorem refl (F : Cnf) : Conservative F F where
  grows := le_rfl
  added := ⟨[], by simp, by simp⟩
  extends_model a ha := ⟨a, .refl a, ha⟩
  unique := by
    intro a b c ha hb hbm hc hcm
    have hva := (isModel_iff.mp ha).1
    rw [hb.eq (by rw [(isModel_iff.mp hbm).1, hva]), hc.eq (by rw [(isModel_iff.mp hcm).1, hva])]

/-- The part of a later model that a formula in between speaks of is a model of it. -/
theorem exists_between (h : Conservative F F') (h' : Conservative F' F'')
    {b : Assignment} (ha : F.isModel a) (hb : b.Extends a) (hbm : F''.isModel b) :
    ∃ c, c.Extends a ∧ b.Extends c ∧ F'.isModel c := by
  obtain ⟨hva, hclauses⟩ := isModel_iff.mp ha
  obtain ⟨hvb, hclausesb⟩ := isModel_iff.mp hbm
  have hsize : F'.variables ≤ b.values.size := h'.grows.trans hvb.ge
  let c : Assignment := { values := b.values.take F'.variables }
  have hvc : c.variables = F'.variables := by simp [c, Assignment.variables, hsize]
  have hbc : b.Extends c := by
    simpa [c, Assignment.Extends] using List.take_prefix _ _
  have hca : c.Extends a := hbc.of_le hb (by rw [hva, hvc]; exact h.grows)
  refine ⟨c, hca, hbc, isModel_iff.mpr ⟨hvc, fun clause hclause => ?_⟩⟩
  obtain ⟨new, hnew, howned⟩ := h.added
  obtain ⟨new', hnew', -⟩ := h'.added
  rw [hnew] at hclause
  rcases List.mem_append.mp hclause with hold | hadded
  · obtain ⟨l, hl, hsat⟩ := List.any_eq_true.mp (hclauses clause hold)
    exact List.any_eq_true.mpr ⟨l, hl, hca.satisfies_of hsat⟩
  · have hin : clause ∈ F''.clauses.toList := by
      rw [hnew', hnew]
      exact List.mem_append_left _ hclause
    obtain ⟨l, hl, hsat⟩ := List.any_eq_true.mp (hclausesb clause hin)
    have hown := List.all_eq_true.mp (howned clause hadded) l hl
    exact List.any_eq_true.mpr ⟨l, hl, (hbc.satisfies_eq (hvc ▸ hown)).symm.trans hsat⟩

theorem trans (h : Conservative F F') (h' : Conservative F' F'') : Conservative F F'' where
  grows := h.grows.trans h'.grows
  added := by
    obtain ⟨new, hnew, howned⟩ := h.added
    obtain ⟨new', hnew', howned'⟩ := h'.added
    refine ⟨new ++ new', by rw [hnew', hnew, List.append_assoc], fun clause hclause => ?_⟩
    rcases List.mem_append.mp hclause with hclause | hclause
    · refine List.all_eq_true.mpr fun l hl => owns_mono h'.grows ?_
      exact List.all_eq_true.mp (howned clause hclause) l hl
    · exact howned' clause hclause
  extends_model a ha := by
    obtain ⟨b, hb, hbm⟩ := h.extends_model a ha
    obtain ⟨c, hc, hcm⟩ := h'.extends_model b hbm
    exact ⟨c, hc.trans hb, hcm⟩
  unique := by
    intro a b c ha hb hbm hc hcm
    obtain ⟨b', hb'a, hbb', hb'm⟩ := h.exists_between h' ha hb hbm
    obtain ⟨c', hc'a, hcc', hc'm⟩ := h.exists_between h' ha hc hcm
    obtain rfl := h.unique ha hb'a hb'm hc'a hc'm
    exact h'.unique hb'm hbb' hbm hcc' hcm

end Conservative

end Cnf

end TensorLogic
