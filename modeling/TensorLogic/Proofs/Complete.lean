import Mathlib.Data.List.Perm.Subperm
import TensorLogic.Proofs.Faithful

/-!
# Sessions that solve

Enumerating relies on one thing more than compiling does: a request to solve is answered,
with some model of the working formula or, if there is none, with none. Which model it
is stays open, and it may depend on whatever the session remembers.

A session that goes through all assignments is of this kind.
-/

namespace TensorLogic

open Cnf

/-- A session that always answers. Solving leaves the working formula as it is. -/
class CompleteSession (σ : Type) [Session σ] extends Faithful σ where
  solve_spec : ∀ s : σ, ∃ answer s', Session.solve s = .ok answer s' ∧
    formula s' = formula s ∧
    ((∃ a, answer = some a ∧ (formula s).isModel a) ∨
      answer = none ∧ ∀ a, ¬ (formula s).isModel a)

/-! ## Search through all assignments -/

/-- Every list of `n` truth values. -/
def bitLists : Nat → List (List Bool)
  | 0 => [[]]
  | n + 1 => (bitLists n).flatMap fun bits => [false :: bits, true :: bits]

theorem mem_bitLists {n : Nat} {bits : List Bool} : bits ∈ bitLists n ↔ bits.length = n := by
  induction n generalizing bits with
  | zero => simp [bitLists]
  | succ n ih =>
      rw [bitLists, List.mem_flatMap]
      constructor
      · rintro ⟨rest, hrest, hbits⟩
        have hlen := ih.mp hrest
        obtain rfl | rfl : bits = false :: rest ∨ bits = true :: rest := by simpa using hbits
        · rw [List.length_cons, hlen]
        · rw [List.length_cons, hlen]
      · intro hlen
        obtain ⟨bit, rest, rfl⟩ := List.exists_cons_of_length_eq_add_one hlen
        refine ⟨rest, ih.mpr (Nat.succ.inj hlen), ?_⟩
        cases bit
        · exact List.mem_cons_self
        · exact List.mem_cons_of_mem _ List.mem_cons_self

theorem length_bitLists (n : Nat) : (bitLists n).length = Nat.pow 2 n := by
  induction n with
  | zero => rfl
  | succ n ih =>
      rw [bitLists, List.length_flatMap]
      simp [ih, Nat.pow_succ]

/-- Only so many lists of one length are different. -/
theorem length_le_of_nodup {n : Nat} {found : List (List Bool)} (hnodup : found.Nodup)
    (hlen : ∀ bits ∈ found, bits.length = n) : found.length ≤ Nat.pow 2 n := by
  have hsubset : found ⊆ bitLists n := fun bits hbits => mem_bitLists.mpr (hlen bits hbits)
  rw [← length_bitLists]
  exact (List.subperm_of_subset hnodup hsubset).length_le

/-- A session that takes the first model in the order of `bitLists`. -/
structure ExhaustiveSession where
  formula : Cnf := {}

namespace ExhaustiveSession

def firstModel (F : Cnf) : Option Assignment :=
  ((bitLists F.variables).map fun bits => { values := bits.toArray }).find? F.isModel

theorem firstModel_eq_none {F : Cnf} (h : firstModel F = none) (a : Assignment) :
    ¬ F.isModel a := by
  intro ha
  have hlen : a.values.toList.length = F.variables := (isModel_iff.mp ha).1
  have hmem : a ∈ (bitLists F.variables).map fun bits => { values := bits.toArray } :=
    List.mem_map.mpr ⟨a.values.toList, mem_bitLists.mpr hlen, rfl⟩
  exact List.find?_eq_none.mp h a hmem ha

def allocate : Run ExhaustiveSession Literal := do
  modify fun s => { formula := s.formula.allocate }
  return (← get).formula.variables

instance : Session ExhaustiveSession where
  allocate := allocate
  ensure clause := modify fun s => { formula := s.formula.ensure clause }
  clear _ := {}
  solve := return firstModel (← get).formula
  «variables» s := s.formula.variables
  clauses s := s.formula.clauses.size

instance : CompleteSession ExhaustiveSession where
  formula s := s.formula
  formula_clear _ := rfl
  allocate_spec _ := .inl ⟨_, rfl, rfl⟩
  ensure_spec _ _ _ := ⟨_, rfl, rfl⟩
  solve_spec s := by
    refine ⟨firstModel s.formula, s, rfl, rfl, ?_⟩
    cases h : firstModel s.formula with
    | none => exact .inr ⟨rfl, firstModel_eq_none h⟩
    | some a => exact .inl ⟨a, rfl, List.find?_some h⟩

end ExhaustiveSession

end TensorLogic
