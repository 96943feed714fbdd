import TensorLogic.Interpreter.Clausal
import TensorLogic.Interpreter.Truth
import TensorLogic.Proofs.Extension

/-!
# Gates

Every gate allocates one fresh variable and hands over clauses, and the clauses are
satisfied exactly if the new literal has the value that the gate computes of its
inputs. `Defines` is that property of the clauses, and it is all that is needed: a
formula which grows by such a gate grows conservatively (`Defines.conservative`).
The four gates are shown to be of that kind, with inputs that may repeat and may be
negated.
-/

namespace TensorLogic

namespace Assignment

def push (a : Assignment) (value : Bool) : Assignment :=
  { values := a.values.push value }

variable {a b : Assignment} {value : Bool}

@[simp] theorem variables_push : (a.push value).variables = a.variables + 1 := by
  simp [push, Assignment.variables]

theorem push_extends : (a.push value).Extends a := by
  simp [push, Extends]

theorem satisfies_push : (a.push value).satisfies (a.variables + 1 : Nat) = value := by
  have hpos : ((a.variables + 1 : Nat) : Literal) > 0 := Literal.natCast_pos (Nat.succ_pos _)
  rw [satisfies, Literal.var_natCast, Nat.add_sub_cancel, decide_eq_true hpos,
    decide_eq_true (Literal.ne_zero_of_pos hpos), push, Assignment.variables,
    Array.getElem?_push_size]
  cases value <;> rfl

/-- An extension by one variable is its value. -/
theorem Extends.eq_push (h : b.Extends a) (hsize : b.variables = a.variables + 1) :
    b = a.push (b.satisfies (a.variables + 1 : Nat)) := by
  obtain ⟨rest, hrest⟩ := h
  have hlen : rest.length = 1 := by
    have := congrArg List.length hrest
    rw [List.length_append, length_values, length_values, hsize] at this
    omega
  obtain ⟨value, rfl⟩ := List.length_eq_one_iff.mp hlen
  have hb : b = a.push value := by
    cases b
    simp only [push, Assignment.mk.injEq]
    apply Array.toList_inj.mp
    simpa using hrest.symm
  rw [hb, satisfies_push]

end Assignment

namespace Cnf

/-- Whatever the assignment, the clauses are satisfied exactly if their first argument
has the value `f` of the inputs; and they name nothing else. -/
structure Defines (clauses : Literal → List Clause) (inputs : List Literal)
    (f : List Bool → Bool) : Prop where
  owned : ∀ {n out}, owns n out → (∀ x ∈ inputs, owns n x) →
    ∀ clause ∈ clauses out, clause.all (owns n)
  satisfied_iff : ∀ {a : Assignment} {out}, owns a.variables out →
    (∀ x ∈ inputs, owns a.variables x) →
    ((∀ clause ∈ clauses out, clause.any a.satisfies) ↔
      a.satisfies out = f (inputs.map a.satisfies))

variable {F F' : Cnf} {clauses : Literal → List Clause} {inputs : List Literal}
  {f : List Bool → Bool}

/-- The literal of the variable that would be allocated next. -/
def fresh (F : Cnf) : Literal :=
  (F.variables + 1 : Nat)

theorem owns_fresh (F : Cnf) : owns (F.variables + 1) F.fresh := by
  rw [owns_iff, fresh, Literal.var_natCast]
  exact ⟨Literal.ne_zero_of_pos (Literal.natCast_pos (Nat.succ_pos _)), le_rfl⟩

namespace Defines

variable (h : Defines clauses inputs f) (hinputs : ∀ x ∈ inputs, owns F.variables x)
  (hvars : F'.variables = F.variables + 1)
  (hclauses : F'.clauses.toList = F.clauses.toList ++ clauses F.fresh)

include h hinputs hvars hclauses

theorem isModel_iff_push {a : Assignment} (ha : F.isModel a) (value : Bool) :
    F'.isModel (a.push value) ↔ value = f (inputs.map a.satisfies) := by
  obtain ⟨hva, hold⟩ := isModel_iff.mp ha
  have hsize : (a.push value).variables = F.variables + 1 := by simp [hva]
  have howned : ∀ x ∈ inputs, owns (a.push value).variables x := fun x hx =>
    owns_mono (by rw [hsize]; omega) (hinputs x hx)
  have hvalues : inputs.map (a.push value).satisfies = inputs.map a.satisfies :=
    List.map_congr_left fun x hx =>
      Assignment.push_extends.satisfies_eq (hva ▸ hinputs x hx)
  have hfresh : (a.push value).satisfies F.fresh = value := by
    rw [fresh, ← hva, Assignment.satisfies_push]
  have hiff := h.satisfied_iff (hsize ▸ owns_fresh F) howned
  rw [hvalues, hfresh] at hiff
  rw [← hiff, isModel_iff, hclauses]
  constructor
  · exact fun hmodel clause hclause => hmodel.2 clause (List.mem_append_right _ hclause)
  · refine fun hnew => ⟨by rw [hsize, hvars], fun clause hclause => ?_⟩
    rcases List.mem_append.mp hclause with hclause | hclause
    · obtain ⟨l, hl, hsat⟩ := List.any_eq_true.mp (hold clause hclause)
      exact List.any_eq_true.mpr ⟨l, hl, Assignment.push_extends.satisfies_of hsat⟩
    · exact hnew clause hclause

theorem conservative : Conservative F F' where
  grows := by rw [hvars]; omega
  added := ⟨clauses F.fresh, hclauses, by
    rw [hvars]
    exact h.owned (owns_fresh F) fun x hx => owns_mono (by omega) (hinputs x hx)⟩
  extends_model a ha :=
    ⟨a.push _, Assignment.push_extends,
      (h.isModel_iff_push hinputs hvars hclauses ha _).mpr rfl⟩
  unique := by
    intro a b c ha hb hbm hc hcm
    have hva := (isModel_iff.mp ha).1
    have hb' := hb.eq_push (by rw [(isModel_iff.mp hbm).1, hvars, hva])
    have hc' := hc.eq_push (by rw [(isModel_iff.mp hcm).1, hvars, hva])
    rw [hb'] at hbm
    rw [hc'] at hcm
    rw [hb', hc', (h.isModel_iff_push hinputs hvars hclauses ha _).mp hbm,
      (h.isModel_iff_push hinputs hvars hclauses ha _).mp hcm]

/-- In every model the gate has the value that it computes. -/
theorem satisfies_fresh {a : Assignment} (ha : F'.isModel a) :
    a.satisfies F.fresh = f (inputs.map a.satisfies) := by
  obtain ⟨hva, hall⟩ := isModel_iff.mp ha
  rw [hvars] at hva
  refine (h.satisfied_iff (hva ▸ owns_fresh F) fun x hx => ?_).mp fun clause hclause => ?_
  · exact owns_mono (by omega) (hinputs x hx)
  · exact hall clause (hclauses ▸ List.mem_append_right _ hclause)

end Defines

end Cnf

/-! ## The gates -/

namespace Clausal

open Cnf

def liftClauses (value : Bool) (out : Literal) : List Clause :=
  [[if value then out else -out]]

def andClauses (inputs : List Literal) (out : Literal) : List Clause :=
  inputs.map (fun x => [-out, x]) ++ [out :: inputs.map (- ·)]

def orClauses (inputs : List Literal) (out : Literal) : List Clause :=
  inputs.map (fun x => [out, -x]) ++ [-out :: inputs]

def equClauses (a b out : Literal) : List Clause :=
  [[-out, -a, b], [-out, a, -b], [out, a, b], [out, -a, -b]]

theorem defines_lift (value : Bool) : Defines (liftClauses value) [] fun _ => value where
  owned := by
    intro n out hout _ clause hclause
    cases List.mem_singleton.mp hclause
    cases value
    · simpa using owns_neg hout
    · simpa using hout
  satisfied_iff := by
    intro a out hout _
    cases value
    · simp [liftClauses, Assignment.satisfies_neg hout]
    · simp [liftClauses]

theorem defines_and (inputs : List Literal) :
    Defines (andClauses inputs) inputs fun values => values.all fun v => v where
  owned := by
    intro n out hout hin clause hclause
    rcases List.mem_append.mp hclause with hclause | hclause
    · obtain ⟨x, hx, rfl⟩ := List.mem_map.mp hclause
      simpa using ⟨owns_neg hout, hin x hx⟩
    · cases List.mem_singleton.mp hclause
      simpa using ⟨hout, fun x hx => owns_neg (hin x hx)⟩
  satisfied_iff := by
    intro a out hout hin
    have hneg : ∀ x ∈ inputs, a.satisfies (-x) = !a.satisfies x := fun x hx =>
      Assignment.satisfies_neg (hin x hx)
    simp only [andClauses, List.forall_mem_append, List.forall_mem_map, List.any_cons,
      List.any_nil, Assignment.satisfies_neg hout, List.forall_mem_singleton, List.any_map,
      List.all_map]
    cases a.satisfies out
    · simp [eq_comm (a := false), List.all_eq_false, Function.comp_def]
      grind
    · simp [eq_comm (a := true), Function.comp_def]

theorem defines_or (inputs : List Literal) :
    Defines (orClauses inputs) inputs fun values => values.any fun v => v where
  owned := by
    intro n out hout hin clause hclause
    rcases List.mem_append.mp hclause with hclause | hclause
    · obtain ⟨x, hx, rfl⟩ := List.mem_map.mp hclause
      simpa using ⟨hout, owns_neg (hin x hx)⟩
    · cases List.mem_singleton.mp hclause
      simpa using ⟨owns_neg hout, hin⟩
  satisfied_iff := by
    intro a out hout hin
    have hneg : ∀ x ∈ inputs, a.satisfies (-x) = !a.satisfies x := fun x hx =>
      Assignment.satisfies_neg (hin x hx)
    simp only [orClauses, List.forall_mem_append, List.forall_mem_map, List.any_cons,
      List.any_nil, Assignment.satisfies_neg hout, List.forall_mem_singleton, List.any_map]
    cases a.satisfies out
    · simp [eq_comm (a := false), Function.comp_def]
      grind
    · simp [eq_comm (a := true), Function.comp_def]

theorem defines_equ (x y : Literal) :
    Defines (equClauses x y) [x, y] fun values => neighboursAgree values where
  owned := by
    intro n out hout hin clause hclause
    have hx := hin x (by simp)
    have hy := hin y (by simp)
    simp only [equClauses, List.mem_cons, List.not_mem_nil, or_false] at hclause
    rcases hclause with rfl | rfl | rfl | rfl <;> simp [hout, hx, hy, owns_neg]
  satisfied_iff := by
    intro a out hout hin
    have hx := hin x (by simp)
    have hy := hin y (by simp)
    simp only [equClauses, List.forall_mem_cons, List.any_cons, List.any_nil,
      Assignment.satisfies_neg, hout, hx, hy, List.map_cons, List.map_nil, neighboursAgree]
    cases a.satisfies out <;> cases a.satisfies x <;> cases a.satisfies y <;> simp

end Clausal

end TensorLogic
