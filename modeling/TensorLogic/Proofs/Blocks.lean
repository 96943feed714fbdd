import Mathlib.Data.List.Perm.Basic
import Mathlib.Logic.Function.Basic
import TensorLogic.Proofs.Aggregators
import TensorLogic.Proofs.Assignments

/-!
# The block behind a cell

`Join.reduce_assigned` says which values a contraction aggregates into a cell, but not how
often each of them comes and in which order. Here the block is written down: `assignments`
runs through the assignments to the folded labels, the last label fastest, and the block
consists of what the operands combine to along this list (`Join.contractedCell_map`).

The order of the operands decides in which order labels are folded, and so only how this
list is arranged (`assignments_perm`); the names of the labels do not occur in the cells at
all. Functions that do not look at the order of their arguments therefore give the same cell
for operands in any order (`Join.contractedCell_perm`) and under any names
(`Join.contractedCell_relabel`). All four aggregators are such functions, and so are the two
connectives that take any number of arguments.
-/

namespace TensorLogic

variable {α β : Type}

/-! ## Lists of assignments -/

/-- The assignments within the extents that agree with `ρ` off the labels. -/
def assignments (extent : Char → Nat) : List Char → (Char → Nat) → List (Char → Nat)
  | [], ρ => [ρ]
  | c :: labels, ρ => (List.range (extent c)).flatMap fun i =>
      assignments extent labels (Function.update ρ c i)

section Assignments

variable {extent : Char → Nat} {labels labels' : List Char} {ρ π : Char → Nat}

theorem eq_of_mem_assignments (h : π ∈ assignments extent labels ρ) {c : Char}
    (hc : c ∉ labels) : π c = ρ c := by
  induction labels generalizing ρ with
  | nil => rw [List.mem_singleton.mp h]
  | cons d labels ih =>
      rw [List.mem_cons, not_or] at hc
      obtain ⟨i, -, hi⟩ := List.mem_flatMap.mp h
      rw [ih hi hc.2, Function.update_of_ne hc.1]

/-- Read off at the labels, these assignments are the indices, in their order. -/
theorem map_assignments (hnodup : labels.Nodup) (ρ : Char → Nat) :
    (assignments extent labels ρ).map (fun π => labels.map π) =
      Shape.indices (labels.map extent) := by
  induction labels generalizing ρ with
  | nil => rfl
  | cons c labels ih =>
      obtain ⟨hc, hnodup⟩ := List.nodup_cons.mp hnodup
      rw [assignments, List.map_cons, Shape.indices, List.map_flatMap]
      congr 1
      funext i
      rw [← ih hnodup (Function.update ρ c i), List.map_map]
      refine List.map_congr_left fun π hπ => ?_
      rw [Function.comp_apply, List.map_cons, eq_of_mem_assignments hπ hc,
        Function.update_self]

theorem flatMap_comm_perm {γ : Type} (as : List α) (bs : List β) (f : α → β → List γ) :
    (as.flatMap fun a => bs.flatMap fun b => f a b).Perm
      (bs.flatMap fun b => as.flatMap fun a => f a b) := by
  induction as with
  | nil => simp
  | cons a as ih =>
      simp only [List.flatMap_cons]
      exact (ih.append_left _).trans (List.flatMap_append_perm bs _ _)

/-- Labels taken in another order give the same assignments in another order. -/
theorem assignments_perm (h : labels.Perm labels') (hnodup : labels.Nodup) (ρ : Char → Nat) :
    (assignments extent labels ρ).Perm (assignments extent labels' ρ) := by
  induction h generalizing ρ with
  | nil => exact .refl _
  | cons c _ ih =>
      exact List.Perm.flatMap_left _ fun i _ => ih (List.nodup_cons.mp hnodup).2 _
  | swap c d labels =>
      have hne : d ≠ c := fun heq =>
        (List.nodup_cons.mp hnodup).1 (heq ▸ List.mem_cons_self)
      -- the two outer ranges change places, and updates at distinct labels commute
      have hcomm := flatMap_comm_perm (List.range (extent d)) (List.range (extent c))
        fun i j => assignments extent labels (Function.update (Function.update ρ d i) c j)
      simp only [Function.update_comm hne] at hcomm
      simp only [assignments, Function.update_comm hne]
      exact hcomm
  | trans h _ ih ih' => exact (ih hnodup ρ).trans (ih' (h.nodup hnodup) ρ)

end Assignments

/-! ## Functions that do not look at the order -/

def Unordered (f : List α → Except Fault β) : Prop :=
  ∀ as bs, as.Perm bs → f as = f bs

theorem mapM_perm {f : α → Except Fault β} {as as' : List α} {bs : List β}
    (h : as.Perm as') (hbs : as.mapM f = .ok bs) :
    ∃ bs', as'.mapM f = .ok bs' ∧ bs.Perm bs' := by
  obtain ⟨bs', hall, hperm⟩ := List.perm_comp_forall₂ h.symm (mapM_eq_ok.mp hbs)
  exact ⟨bs', mapM_eq_ok.mpr hall, hperm.symm⟩

theorem neighboursAgree_iff {values : List Bool} :
    neighboursAgree values = true ↔ ∀ a ∈ values, ∀ b ∈ values, a = b := by
  cases values with
  | nil => simp [neighboursAgree]
  | cons a values =>
      simp only [neighboursAgree_cons, List.all_eq_true, beq_iff_eq]
      constructor
      · intro h
        have hall : ∀ b ∈ a :: values, a = b := List.forall_mem_cons.mpr ⟨rfl, h⟩
        intro b hb c hc
        rw [← hall b hb, hall c hc]
      · intro h b hb
        exact h a List.mem_cons_self b (List.mem_cons_of_mem _ hb)

theorem aggregate_unordered (agg : Aggregate) :
    Unordered fun cells => (truthValues.aggregate agg cells).value := by
  intro as bs h
  cases agg with
  | all => exact congrArg Except.ok h.all_eq
  | any => exact congrArg Except.ok h.any_eq
  | one =>
      show Except.ok (as.count true == 1) = Except.ok (bs.count true == 1)
      rw [h.count_eq]
  | eqs =>
      refine congrArg Except.ok (Bool.eq_iff_iff.mpr ?_)
      simp only [neighboursAgree_iff, h.mem_iff]

theorem connect_unordered {op : Connective} (hop : op = .and ∨ op = .or) :
    Unordered fun cells => (truthValues.connect op cells).value := by
  intro as bs h
  cases as with
  | nil => rw [h.nil_eq]
  | cons a as =>
      have hne : bs ≠ [] := fun hnil => by
        rw [hnil] at h
        cases h.eq_nil
      obtain ⟨b, bs, rfl⟩ := List.exists_cons_of_ne_nil hne
      obtain rfl | rfl := hop
      · exact congrArg Except.ok h.all_eq
      · exact congrArg Except.ok h.any_eq

/-! ## Operands in another order -/

namespace Join

variable {output : String} {operands operands' : List (Labelled α)}
  {extent ρ π : Char → Nat} {combine : List α → Except Fault β}
  {aggregate : List β → Except Fault β} {b : β}

/-- A cell of a contraction, with its block given by the list of assignments. -/
theorem contractedCell_map (ρ : Char → Nat) :
    contractedCell output operands extent combine aggregate (output.toList.map ρ) = (do
      aggregate (← (assignments extent (foldedLabels output operands) ρ).mapM
        (combinedAt operands combine))) := by
  rw [contractedCell, ← map_assignments nodup_foldedLabels ρ, List.mapM_map]
  congr 1
  refine Shape.mapM_congr fun π hπ => ?_
  have houtput : output.toList.map ρ = output.toList.map π := by
    refine List.map_congr_left fun c hc => ?_
    exact (eq_of_mem_assignments hπ fun hmem => (mem_foldedLabels.mp hmem).2 hc).symm
  rw [Function.comp_apply, houtput, ← List.map_append, ← jointLabels, jointCell_map]

theorem foldedLabels_perm (h : operands.Perm operands') (output : String) :
    (foldedLabels output operands).Perm (foldedLabels output operands') := by
  rw [List.perm_ext_iff_of_nodup nodup_foldedLabels nodup_foldedLabels]
  intro c
  simp only [mem_foldedLabels, h.mem_iff]

theorem combinedAt_perm (h : operands.Perm operands') (hcombine : Unordered combine)
    (hb : combinedAt operands combine π = .ok b) : combinedAt operands' combine π = .ok b := by
  obtain ⟨cells, hcells, hb⟩ := bind_eq_ok.mp hb
  obtain ⟨cells', hcells', hperm⟩ := mapM_perm h hcells
  exact bind_eq_ok.mpr ⟨cells', hcells', hcombine _ _ hperm ▸ hb⟩

theorem contractedCell_perm (h : operands.Perm operands') (hcombine : Unordered combine)
    (haggregate : Unordered aggregate)
    (hb : contractedCell output operands extent combine aggregate (output.toList.map ρ) =
      .ok b) :
    contractedCell output operands' extent combine aggregate (output.toList.map ρ) = .ok b := by
  rw [contractedCell_map] at hb ⊢
  obtain ⟨block, hblock, hb⟩ := bind_eq_ok.mp hb
  obtain ⟨block', hblock', hperm⟩ :=
    mapM_perm (assignments_perm (foldedLabels_perm h output) nodup_foldedLabels ρ) hblock
  have hcells := (mapM_eq_ok.mp hblock').imp fun π b hπ => combinedAt_perm h hcombine hπ
  exact bind_eq_ok.mpr ⟨block', mapM_eq_ok.mpr hcells, haggregate _ _ hperm ▸ hb⟩

end Join

/-! ## Labels under other names -/

/-- The operand with its labels renamed. -/
def Labelled.relabel (f : Char → Char) (operand : Labelled α) : Labelled α :=
  operand.tensor.named (operand.labels.map f)

theorem letters_relabel (f : Char → Char) (operand : Labelled α) :
    (operand.relabel f).letters = operand.letters.map f :=
  String.toList_map

section Relabel

variable {f : Char → Char} (hf : Function.Injective f)
include hf

theorem eraseDups_map (labels : List Char) :
    (labels.map f).eraseDups = labels.eraseDups.map f := by
  match labels with
  | [] => rfl
  | c :: labels =>
      have hsame : ∀ d, (f d == f c) = (d == c) := fun d => by
        rw [Bool.eq_iff_iff, beq_iff_eq, beq_iff_eq, hf.eq_iff]
      simp only [List.map_cons, List.eraseDups_cons, List.filter_map, Function.comp_def, hsame]
      rw [eraseDups_map (labels.filter _)]
termination_by labels.length
decreasing_by exact Nat.lt_succ_of_le (List.length_filter_le _ _)

theorem idxOf_map (labels : List Char) (c : Char) :
    (labels.map f).idxOf (f c) = labels.idxOf c := by
  rw [List.idxOf, List.findIdx_map]
  congr 1
  funext d
  rw [Function.comp_apply, Bool.eq_iff_iff, beq_iff_eq, beq_iff_eq, hf.eq_iff]

theorem read_relabel (labels : List Char) (index : Index) (operand : Labelled α) :
    (operand.relabel f).read (labels.map f) index = operand.read labels index := by
  rw [Labelled.read, Labelled.read, letters_relabel, List.map_map]
  refine congrArg operand.tensor.get (List.map_congr_left fun c _ => ?_)
  rw [Function.comp_apply, idxOf_map hf]

namespace Join

variable (output : String) (operands : List (Labelled α))

omit hf in
theorem sized_relabel {extent : Char → Nat} :
    Sized extent (operands.map (Labelled.relabel f)) ↔ Sized (extent ∘ f) operands := by
  simp only [Sized, List.forall_mem_map, letters_relabel, List.map_map]
  rfl

theorem foldedLabels_relabel :
    foldedLabels (output.map f) (operands.map (Labelled.relabel f)) =
      (foldedLabels output operands).map f := by
  have hletters : (operands.map (Labelled.relabel f)).flatMap Labelled.letters =
      (operands.flatMap Labelled.letters).map f := by
    rw [List.flatMap_map, List.map_flatMap]
    simp only [letters_relabel]
  rw [foldedLabels, hletters, eraseDups_map hf, List.filter_map, String.toList_map, foldedLabels]
  congr 1
  refine List.filter_congr fun c _ => ?_
  rw [Function.comp_apply, Bool.eq_iff_iff]
  simp [hf.eq_iff]

theorem jointLabels_relabel :
    jointLabels (output.map f) (operands.map (Labelled.relabel f)) =
      (jointLabels output operands).map f := by
  rw [jointLabels, foldedLabels_relabel hf, String.toList_map, ← List.map_append, jointLabels]

variable {output operands} {extent : Char → Nat} {combine : List α → Except Fault β}
  {aggregate : List β → Except Fault β}

theorem contractedCell_relabel (index : Index) :
    contractedCell (output.map f) (operands.map (Labelled.relabel f)) extent combine aggregate
        index =
      contractedCell output operands (extent ∘ f) combine aggregate index := by
  have hjoint : ∀ j, jointCell (output.map f) (operands.map (Labelled.relabel f)) combine j =
      jointCell output operands combine j := by
    intro j
    rw [jointCell, jointCell, readAll, readAll, jointLabels_relabel hf, List.mapM_map]
    congr 2
    funext operand
    exact read_relabel hf _ j operand
  rw [contractedCell, contractedCell, foldedLabels_relabel hf, List.map_map]
  simp only [hjoint]

end Join

end Relabel

end TensorLogic
