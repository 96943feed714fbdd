import TensorLogic.Problem.Ready
import TensorLogic.Proofs.ClosedSets
import TensorLogic.Proofs.Declared
import TensorLogic.Proofs.Essentials
import TensorLogic.Proofs.Functions
import TensorLogic.Relation.Binary

/-!
# Classical properties of relations and operations

Reflexive, symmetric and transitive relations, majority and Maltsev operations: each is told
by the labels of a contraction. Axes that carry one label are read at one value, so what a
contraction by `all` asks of the cells of a graph is an identity, for all values of its
variables (`holdsAlong_iff`). That holds of graphs only. Of a tensor that is no graph the
pattern says something else, which is why the problems ask for a graph first.

For the ready-made problems this comes to one statement, over any number of elements
(`check_iff_holds`). With no elements every property holds but the essential one, and there
is one operation.
-/

namespace TensorLogic

namespace Relation

variable {t r : Tensor Bool} {n x y z : Nat} {b : Bool} {labels : List Char}

/-! ## Patterns of labels -/

/-- The values of three variables. -/
def coordinates (x y z : Nat) : Char → Nat
  | 'x' => x
  | 'y' => y
  | _ => z

/-- A tensor with one label for each axis. -/
def pattern (t : Tensor Bool) (labels : List Char) : Labelled Bool :=
  t.named (String.ofList labels)

@[simp] theorem letters_pattern : (pattern t labels).letters = labels :=
  letters_named t labels

@[simp] theorem cellAt_pattern {π : Char → Nat} :
    (pattern t labels).cellAt π = t.get (labels.map π) :=
  cellAt_named t labels π

theorem shape_pattern (h : t.shape = List.replicate labels.length n) :
    (pattern t labels).tensor.shape = (pattern t labels).letters.map fun _ => n := by
  rw [letters_pattern, List.map_const']
  exact h

theorem forall_mem_pair {α : Type} {a b : α} {P : α → Prop} :
    (∀ c ∈ [a, b], P c) ↔ P a ∧ P b := by
  rw [List.forall_mem_cons, List.forall_mem_singleton]

/-- The scalar is the one cell. -/
theorem get_of_toScalar (h : r.toScalar = .ok b) : r.get [] = .ok b := by
  rw [Tensor.toScalar] at h
  split at h
  next => exact h
  next => cases h

theorem within_nil {extent ρ : Char → Nat} : Within extent "".toList ρ :=
  fun _ hc => absurd hc List.not_mem_nil

/-- With no output, any assignment within the operands gives a cell of the block. -/
theorem extends_nil_iff {operands : List (Labelled Bool)} {extent ρ π : Char → Nat} :
    Join.Extends "" operands extent ρ π ↔
      ∀ operand ∈ operands, Within extent operand.letters π :=
  ⟨fun h => h.within, fun h => ⟨fun _ hc => absurd hc List.not_mem_nil, h⟩⟩

/-- All cells hold that the labels select. -/
def HoldsAlong (t : Tensor Bool) (n : Nat) (labels : List Char) : Prop :=
  ∀ π, Within (fun _ => n) labels π → t.get (labels.map π) = .ok true

theorem selected_iff (hcube : t.shape = List.replicate labels.length n)
    (h : (truthValues.reduce .all "" .id [pattern t labels]).value = .ok r)
    (hb : r.toScalar = .ok b) :
    b = true ↔ HoldsAlong t n labels := by
  have hsized : Join.Sized (fun _ => n) [pattern t labels] :=
    List.forall_mem_singleton.mpr (shape_pattern hcube)
  obtain ⟨block, z, hget, haggregate, hsound, hcomplete⟩ :=
    reduce_single h hsized (within_nil (ρ := fun _ => 0))
  obtain rfl : z = b := Except.ok.inj (hget.symm.trans (get_of_toScalar hb))
  have hz : (block.all fun x => x) = z := Except.ok.inj haggregate
  simp only [extends_nil_iff, List.forall_mem_singleton, letters_pattern,
    cellAt_pattern] at hsound hcomplete
  rw [← hz, List.all_eq_true]
  constructor
  · intro hblock π hπ
    obtain ⟨x, hx, hcell⟩ := hcomplete π hπ
    exact hblock x hx ▸ hcell
  · intro hcells x hx
    obtain ⟨π, hπ, hcell⟩ := hsound x hx
    exact Except.ok.inj (hcell.symm.trans (hcells π hπ))

/-- Over the labels of two variables, assignments are pairs of values. -/
theorem forall_pair_iff {P : Nat → Nat → Prop} :
    (∀ π, Within (fun _ => n) ['x', 'y'] π → P (π 'x') (π 'y')) ↔ ∀ x y : Fin n, P x y := by
  constructor
  · intro h x y
    exact h (coordinates x y 0) (forall_mem_pair.mpr ⟨x.isLt, y.isLt⟩)
  · intro h π hπ
    obtain ⟨hx, hy⟩ := forall_mem_pair.mp hπ
    exact h ⟨π 'x', hx⟩ ⟨π 'y', hy⟩

/-! ## Relations -/

theorem sized_pair (hshape : t.shape = [n, n]) (a b c d : Char) :
    Join.Sized (fun _ => n) [pattern t [a, b], pattern t [c, d]] :=
  forall_mem_pair.mpr ⟨shape_pattern hshape, shape_pattern hshape⟩

theorem isReflexive_iff (hshape : t.shape = [n, n])
    (h : (isReflexive truthValues t).value = .ok b) :
    b = true ↔ ∀ x, related t n n x x := by
  obtain ⟨_, -, h⟩ := Run.lift_bind_eq_ok.mp (Run.value_eq_ok.mp h)
  obtain ⟨all, s, hall, hscalar⟩ := Run.bind_eq_ok.mp h
  have hall : (truthValues.reduce .all "" .id [pattern t ['x', 'x']]).value = .ok all :=
    Run.value_eq_ok.mpr hall
  rw [selected_iff hshape hall (Run.lift_eq_ok.mp hscalar).1]
  constructor
  · intro hcells x
    exact hcells (fun _ => x) fun _ _ => x.isLt
  · intro hcells π hπ
    exact hcells ⟨π 'x', hπ 'x' List.mem_cons_self⟩

theorem isSymmetric_iff (hshape : t.shape = [n, n])
    (h : (isSymmetric truthValues t).value = .ok b) :
    b = true ↔ ∀ x y, related t n n x y ↔ related t n n y x := by
  obtain ⟨_, -, h⟩ := Run.lift_bind_eq_ok.mp (Run.value_eq_ok.mp h)
  obtain ⟨all, s, hall, hscalar⟩ := Run.bind_eq_ok.mp h
  have hall : (truthValues.reduce .all "" .equ
      [pattern t ['x', 'y'], pattern t ['y', 'x']]).value = .ok all := Run.value_eq_ok.mpr hall
  have hsized := sized_pair hshape 'x' 'y' 'y' 'x'
  obtain ⟨z, hget, hz⟩ := Compares.equ.reduce_iff hall hsized (within_nil (ρ := fun _ => 0))
  obtain rfl : z = b :=
    Except.ok.inj (hget.symm.trans (get_of_toScalar (Run.lift_eq_ok.mp hscalar).1))
  have hwithin : ∀ π, Join.Extends "" [pattern t ['x', 'y'], pattern t ['y', 'x']]
      (fun _ => n) (fun _ => 0) π ↔ Within (fun _ => n) ['x', 'y'] π := by
    intro π
    rw [extends_nil_iff, forall_mem_pair, letters_pattern, letters_pattern, Within, Within,
      forall_mem_pair, forall_mem_pair, and_comm (a := π 'y' < n), and_self]
  simp only [hz, hwithin, cellAt_pattern]
  exact forall_pair_iff (P := fun x y => t.get [x, y] = .ok true ↔ t.get [y, x] = .ok true)

/-- The cells of a relation composed with itself. -/
theorem composed_get_iff {composed : Tensor Bool} (hshape : t.shape = [n, n])
    (h : (truthValues.reduce .any (String.ofList ['x', 'z']) .and
      [pattern t ['x', 'y'], pattern t ['y', 'z']]).value = .ok composed)
    (hx : x < n) (hz : z < n) :
    composed.get [x, z] = .ok true ↔
      ∃ y < n, t.get [x, y] = .ok true ∧ t.get [y, z] = .ok true := by
  have hsized := sized_pair hshape 'x' 'y' 'y' 'z'
  have hρ : Within (fun _ => n) (String.ofList ['x', 'z']).toList (coordinates x 0 z) := by
    rw [String.toList_ofList]
    exact forall_mem_pair.mpr ⟨hx, hz⟩
  obtain ⟨b, hget, hb⟩ := Quantifies.any.reduce_iff h hsized hρ
  rw [String.toList_ofList] at hget
  have hcell : composed.get [x, z] = .ok b := hget
  simp only [forall_mem_pair, cellAt_pattern] at hb
  rw [hcell, Except.ok.injEq, hb]
  constructor
  · rintro ⟨π, hπ, hleft, hright⟩
    obtain ⟨houtput, hwithin⟩ := hπ
    rw [String.toList_ofList, forall_mem_pair] at houtput
    have hπx : π 'x' = x := houtput.1
    have hπz : π 'z' = z := houtput.2
    have hy := hwithin _ List.mem_cons_self 'y'
    rw [letters_pattern] at hy
    exact ⟨π 'y', hy (by decide), hπx ▸ hleft, hπz ▸ hright⟩
  · rintro ⟨y, hy, hleft, hright⟩
    refine ⟨coordinates x y z, ⟨?_, ?_⟩, hleft, hright⟩
    · rw [String.toList_ofList]
      exact forall_mem_pair.mpr ⟨rfl, rfl⟩
    · rw [forall_mem_pair, letters_pattern, letters_pattern]
      exact ⟨forall_mem_pair.mpr ⟨hx, hy⟩, forall_mem_pair.mpr ⟨hy, hz⟩⟩

theorem isTransitive_iff (hshape : t.shape = [n, n])
    (h : (isTransitive truthValues t).value = .ok b) :
    b = true ↔ ∀ x y z, related t n n x y → related t n n y z → related t n n x z := by
  obtain ⟨_, -, h⟩ := Run.lift_bind_eq_ok.mp (Run.value_eq_ok.mp h)
  obtain ⟨composed, s, hcomposed, h⟩ := Run.bind_eq_ok.mp h
  have hcomposed : (truthValues.reduce .any (String.ofList ['x', 'z']) .and
      [pattern t ['x', 'y'], pattern t ['y', 'z']]).value = .ok composed :=
    Run.value_eq_ok.mpr hcomposed
  have hcshape : composed.shape = [n, n] := by
    have hsized := sized_pair hshape 'x' 'y' 'y' 'z'
    rw [(Join.reduce_sized (reduce_lifted hcomposed) hsized).1, String.toList_ofList]
    rfl
  have hrank : 2 = composed.rank := by
    rw [Tensor.rank, hcshape]
    rfl
  obtain ⟨-, hb⟩ := Compares.leq.folded_iff hrank (Run.value_eq_ok.mpr h)
  rw [hb, hcshape]
  simp only [Shape.forall_mem_indices_cons, Shape.forall_mem_indices_nil]
  constructor
  · intro hall x y z hleft hright
    refine hall x x.isLt z z.isLt ?_
    exact (composed_get_iff hshape hcomposed x.isLt z.isLt).mpr ⟨y, y.isLt, hleft, hright⟩
  · intro hall x hx z hz hcell
    obtain ⟨y, hy, hleft, hright⟩ := (composed_get_iff hshape hcomposed hx hz).mp hcell
    exact hall ⟨x, hx⟩ ⟨y, hy⟩ ⟨z, hz⟩ hleft hright

theorem isEquivalence_iff (hshape : t.shape = [n, n])
    (h : (isEquivalence truthValues t).value = .ok b) :
    b = true ↔ Equivalence (related t n n) := by
  obtain ⟨reflexive, s, hreflexive, h⟩ := Run.bind_eq_ok.mp (Run.value_eq_ok.mp h)
  obtain ⟨symmetric, s', hsymmetric, h⟩ := Run.bind_eq_ok.mp h
  obtain ⟨transitive, s'', htransitive, h⟩ := Run.bind_eq_ok.mp h
  have hb : (reflexive && (symmetric && (transitive && true))) = b :=
    Except.ok.inj (Run.value_eq_ok.mpr h)
  rw [← hb, Bool.and_eq_true, Bool.and_eq_true, Bool.and_true,
    isReflexive_iff hshape (Run.value_eq_ok.mpr hreflexive),
    isSymmetric_iff hshape (Run.value_eq_ok.mpr hsymmetric),
    isTransitive_iff hshape (Run.value_eq_ok.mpr htransitive)]
  constructor
  · rintro ⟨hrefl, hsymm, htrans⟩
    exact ⟨hrefl, (hsymm _ _).mp, htrans _ _ _⟩
  · intro heq
    exact ⟨heq.refl, fun x y => ⟨heq.symm, heq.symm⟩, fun x y z => heq.trans⟩

/-- The complement is computed cell by cell, so every cell of the relation is read. -/
theorem isEssential_reads (h : (isEssential truthValues t).value = .ok b) {index : Index}
    (hindex : index ∈ t.shape.indices) : ∃ c, t.get index = .ok c := by
  obtain ⟨names, -, h⟩ := Run.lift_bind_eq_ok.mp (Run.value_eq_ok.mp h)
  obtain ⟨parts, s, -, h⟩ := Run.bind_eq_ok.mp h
  obtain ⟨outside, s', houtside, h⟩ := Run.bind_eq_ok.mp h
  obtain ⟨-, -, hget⟩ := Tensor.fill_spec (Tensor.map_ok houtside)
  obtain ⟨z, -, s₁, s₂, hcell⟩ := hget index hindex
  obtain ⟨c, hc, -⟩ := Run.lift_bind_eq_ok.mp hcell
  exact ⟨c, hc⟩

/-- A binary relation is essential if a pair outside it can be moved inside by a change of
either side alone. -/
theorem isEssential_pair_iff (hshape : t.shape = [n, n])
    (h : (isEssential truthValues t).value = .ok b) :
    b = true ↔ ∃ x y, ¬ related t n n x y ∧
      (∃ x', related t n n x' y) ∧ ∃ y', related t n n x y' := by
  have hrank : t.rank = 2 := by
    rw [Tensor.rank, hshape]
    rfl
  have hread : ∀ index ∈ t.shape.indices, ∃ c, t.get index = .ok c :=
    fun _ => isEssential_reads h
  rw [isEssential_iff h, hrank]
  rw [hshape] at hread ⊢
  have houtside : ∀ x y : Fin n, t.get [x.val, y.val] = .ok false ↔ ¬ related t n n x y := by
    intro x y
    obtain ⟨c, hc⟩ := hread [x, y] (Shape.pair_mem_indices x.isLt y.isLt)
    rw [related, hc]
    cases c <;> simp
  constructor
  · rintro ⟨index, hindex, hnot, hmoves⟩
    obtain ⟨x, y, rfl⟩ := Shape.mem_indices_pair.mp hindex
    obtain ⟨x', hx', hleft⟩ := hmoves 0 (by decide)
    obtain ⟨y', hy', hright⟩ := hmoves 1 (by decide)
    exact ⟨x, y, (houtside x y).mp hnot, ⟨⟨x', hx'⟩, hleft⟩, ⟨y', hy'⟩, hright⟩
  · rintro ⟨x, y, hnot, ⟨x', hx'⟩, y', hy'⟩
    refine ⟨[x, y], Shape.pair_mem_indices x.isLt y.isLt, (houtside x y).mpr hnot, ?_⟩
    intro axis haxis
    obtain rfl | rfl : axis = 0 ∨ axis = 1 := by omega
    · exact ⟨x', x'.isLt, hx'⟩
    · exact ⟨y', y'.isLt, hy'⟩

/-! ## Operations -/

/-- Several patterns over one cube. -/
theorem holdAlong_spec {patterns : List (List Char)} {parts : List Bool}
    (hcube : ∀ labels ∈ patterns, t.shape = List.replicate labels.length n)
    (h : (holdAlong truthValues t (patterns.map String.ofList)).value = .ok parts) :
    List.Forall₂ (fun labels b => b = true ↔ HoldsAlong t n labels) patterns parts := by
  induction patterns generalizing parts with
  | nil =>
      cases h
      exact .nil
  | cons labels rest ih =>
      obtain ⟨hlabels, hrest⟩ := List.forall_mem_cons.mp hcube
      obtain ⟨all, s, hall, h⟩ := Run.bind_eq_ok.mp (Run.value_eq_ok.mp h)
      obtain ⟨holds, hholds, h⟩ := Run.lift_bind_eq_ok.mp h
      obtain ⟨others, s', hothers, h⟩ := Run.bind_eq_ok.mp h
      cases h
      exact .cons (selected_iff hlabels (Run.value_eq_ok.mpr hall) hholds)
        (ih hrest (Run.value_eq_ok.mpr hothers))

/-- All of several patterns over one cube. -/
theorem allHold_iff (patterns : List (List Char))
    (hcube : ∀ labels ∈ patterns, t.shape = List.replicate labels.length n)
    (h : (do
      let parts ← holdAlong truthValues t (patterns.map String.ofList)
      truthValues.all parts).value = .ok b) :
    b = true ↔ ∀ labels ∈ patterns, HoldsAlong t n labels := by
  obtain ⟨parts, s, hparts, h⟩ := Run.bind_eq_ok.mp (Run.value_eq_ok.mp h)
  obtain ⟨hcomplete, hsound⟩ :=
    exists_of_forall₂ (holdAlong_spec hcube (Run.value_eq_ok.mpr hparts))
  have hb : (parts.all fun b => b) = b := Except.ok.inj (Run.value_eq_ok.mpr h)
  rw [← hb, List.all_eq_true]
  constructor
  · intro hall labels hlabels
    obtain ⟨b, hb, hiff⟩ := hcomplete labels hlabels
    exact hiff.mp (hall b hb)
  · intro hall b hb
    obtain ⟨labels, hlabels, hiff⟩ := hsound b hb
    exact hiff.mpr (hall labels hlabels)

/-- The tensor is the graph of a ternary operation. -/
def IsOperation (t : Tensor Bool) (m : Fin n → Fin n → Fin n → Fin n) : Prop :=
  ∀ v x y z : Fin n, t.get [v.val, x.val, y.val, z.val] = .ok true ↔ v = m x y z

theorem isGraph_iff_operation : IsGraph t n [n, n, n] ↔ ∃ m, IsOperation (n := n) t m := by
  simp only [IsGraph, Shape.forall_mem_indices_cons, Shape.forall_mem_indices_nil]
  constructor
  · intro h
    choose! f hf honly using h
    refine ⟨fun x y z => ⟨f x y z, (hf x x.isLt y y.isLt z z.isLt).1⟩, fun v x y z => ?_⟩
    obtain ⟨-, htrue⟩ := hf x x.isLt y y.isLt z z.isLt
    rw [Fin.ext_iff]
    constructor
    · intro hv
      exact honly x x.isLt y y.isLt z z.isLt v ⟨v.isLt, hv⟩
    · intro hv
      exact hv ▸ htrue
  · rintro ⟨m, hm⟩ x hx y hy z hz
    refine ⟨m ⟨x, hx⟩ ⟨y, hy⟩ ⟨z, hz⟩, ⟨Fin.isLt _, (hm _ ⟨x, hx⟩ ⟨y, hy⟩ ⟨z, hz⟩).mpr rfl⟩, ?_⟩
    rintro v ⟨hv, htrue⟩
    exact congrArg Fin.val ((hm ⟨v, hv⟩ ⟨x, hx⟩ ⟨y, hy⟩ ⟨z, hz⟩).mp htrue)

/-- The values of two variables. -/
def valueOf (x y : Fin n) : Char → Fin n
  | 'x' => x
  | _ => y

variable {m : Fin n → Fin n → Fin n → Fin n}

/-- A pattern in two variables is an identity in them. -/
theorem holdsAlong_iff (hm : IsOperation t m) (v p q s : Char) (hx : 'x' ∈ [v, p, q, s])
    (hy : 'y' ∈ [v, p, q, s]) (hlabels : [v, p, q, s] ⊆ ['x', 'y']) :
    HoldsAlong t n [v, p, q, s] ↔ ∀ x y,
      m (valueOf x y p) (valueOf x y q) (valueOf x y s) = valueOf x y v := by
  constructor
  · intro h x y
    have hcell := h (fun c => valueOf x y c) fun c _ => (valueOf x y c).isLt
    exact ((hm _ _ _ _).mp hcell).symm
  · intro h π hπ
    have hvalue : ∀ c ∈ [v, p, q, s],
        (valueOf ⟨π 'x', hπ 'x' hx⟩ ⟨π 'y', hπ 'y' hy⟩ c).val = π c := by
      intro c hc
      obtain rfl | rfl : c = 'x' ∨ c = 'y' := by simpa using hlabels hc
      · rfl
      · rfl
    rw [← List.map_congr_left hvalue]
    exact (hm _ _ _ _).mpr (h _ _).symm

theorem isMajority_iff (hm : IsOperation t m) (hshape : t.shape = [n, n, n, n])
    (h : (isMajority truthValues t).value = .ok b) :
    b = true ↔ ∀ x y, m x x y = x ∧ m x y x = x ∧ m y x x = x := by
  obtain ⟨_, -, h⟩ := Run.lift_bind_eq_ok.mp (Run.value_eq_ok.mp h)
  rw [allHold_iff [['x', 'x', 'x', 'y'], ['x', 'x', 'y', 'x'], ['x', 'y', 'x', 'x']]
      (by simpa using hshape) (Run.value_eq_ok.mpr h),
    List.forall_mem_cons, forall_mem_pair,
    holdsAlong_iff hm 'x' 'x' 'x' 'y' (by decide) (by decide) (by decide),
    holdsAlong_iff hm 'x' 'x' 'y' 'x' (by decide) (by decide) (by decide),
    holdsAlong_iff hm 'x' 'y' 'x' 'x' (by decide) (by decide) (by decide)]
  simp only [forall_and]
  exact Iff.rfl

theorem isMaltsev_iff (hm : IsOperation t m) (hshape : t.shape = [n, n, n, n])
    (h : (isMaltsev truthValues t).value = .ok b) :
    b = true ↔ ∀ x y, m x x y = y ∧ m y x x = y := by
  obtain ⟨_, -, h⟩ := Run.lift_bind_eq_ok.mp (Run.value_eq_ok.mp h)
  rw [allHold_iff [['y', 'x', 'x', 'y'], ['y', 'y', 'x', 'x']] (by simpa using hshape)
      (Run.value_eq_ok.mpr h), forall_mem_pair,
    holdsAlong_iff hm 'y' 'x' 'x' 'y' (by decide) (by decide) (by decide),
    holdsAlong_iff hm 'y' 'y' 'x' 'x' (by decide) (by decide) (by decide)]
  simp only [forall_and]
  exact Iff.rfl

end Relation

/-! ## What the names mean -/

open TensorLogic.Relation

/-- The property of a binary relation that the name stands for. -/
def RelationProperty.Holds {n : Nat} (R : Fin n → Fin n → Prop) : RelationProperty → Prop
  | .reflexive => ∀ x, R x x
  | .symmetric => ∀ x y, R x y → R y x
  | .transitive => ∀ x y z, R x y → R y z → R x z
  | .equivalence => Equivalence R
  | .essential => ∃ x y, ¬ R x y ∧ (∃ x', R x' y) ∧ ∃ y', R x y'

/-- The identities of a ternary operation that the name stands for. -/
def OperationProperty.Holds {n : Nat} (m : Fin n → Fin n → Fin n → Fin n) :
    OperationProperty → Prop
  | .majority => ∀ x y, m x x y = x ∧ m x y x = x ∧ m y x x = x
  | .maltsev => ∀ x y, m x x y = y ∧ m y x x = y

variable {t : Tensor Bool} {n : Nat} {p : Problem} {b : Solution} {answer : Bool}

theorem RelationProperty.holds_iff {which : RelationProperty} (hshape : t.shape = [n, n])
    (h : (Formula.holds truthValues which.property t).value = .ok answer) :
    answer = true ↔ which.Holds (related t n n) := by
  cases which with
  | reflexive => exact isReflexive_iff hshape h
  | symmetric =>
      refine (isSymmetric_iff hshape h).trans ⟨fun hall x y => (hall x y).mp, ?_⟩
      exact fun hall x y => ⟨hall x y, hall y x⟩
  | transitive => exact isTransitive_iff hshape h
  | equivalence => exact isEquivalence_iff hshape h
  | essential => exact isEssential_pair_iff hshape h

theorem OperationProperty.holds_iff {which : OperationProperty} (hshape : t.shape = [n, n, n, n])
    {m : Fin n → Fin n → Fin n → Fin n} (hm : IsOperation t m)
    (h : (Formula.holds truthValues which.property t).value = .ok answer) :
    answer = true ↔ which.Holds m := by
  cases which with
  | majority => exact isMajority_iff hm hshape h
  | maltsev => exact isMaltsev_iff hm hshape h

/-! ## The problems -/

theorem holds_of_compute {which : Property} {env : Bindings Bool} {name : String}
    (hfind : env.find? name = some t)
    (h : Run.value (Formula.compute truthValues env (.property which (.var name))) = .ok answer) :
    (Formula.holds truthValues which t).value = .ok answer := by
  obtain ⟨r, s, hr, h⟩ := Run.bind_eq_ok.mp (Run.value_eq_ok.mp h)
  have hvar : (Formula.var name).eval truthValues env () = .ok t () := by
    simp only [Formula.eval, Bindings.get, hfind]
    rfl
  rw [Formula.eval] at hr
  obtain ⟨u, s₁, hu, hr⟩ := Run.bind_eq_ok.mp hr
  cases hvar.symm.trans hu
  obtain ⟨cell, s₂, hcell, hr⟩ := Run.bind_eq_ok.mp hr
  cases hr
  cases h
  exact Run.value_eq_ok.mpr hcell

theorem both_of_compute {env : Bindings Bool} {left right : Formula}
    (h : Run.value (Formula.compute truthValues env (.dyad .and left right)) = .ok answer) :
    ∃ x y, Run.value (left.compute truthValues env) = .ok x ∧
      Run.value (right.compute truthValues env) = .ok y ∧ (x && y) = answer := by
  obtain ⟨r, s, hr, h⟩ := Run.bind_eq_ok.mp (Run.value_eq_ok.mp h)
  rw [Formula.eval] at hr
  obtain ⟨u, s₁, hu, hr⟩ := Run.bind_eq_ok.mp hr
  obtain ⟨x, hx, hr⟩ := Run.lift_bind_eq_ok.mp hr
  obtain ⟨v, s₂, hv, hr⟩ := Run.bind_eq_ok.mp hr
  obtain ⟨y, hy, hr⟩ := Run.lift_bind_eq_ok.mp hr
  cases hr
  cases h
  refine ⟨x, y, Run.value_eq_ok.mpr ?_, Run.value_eq_ok.mpr ?_, rfl⟩
  · exact Run.bind_eq_ok.mpr ⟨u, (), hu, Run.lift_eq_ok.mpr ⟨hx, rfl⟩⟩
  · exact Run.bind_eq_ok.mpr ⟨v, (), hv, Run.lift_eq_ok.mpr ⟨hy, rfl⟩⟩

/-- Where the check of a ready-made problem answers, it says what the name of the problem
says: of the relation that the tensor holds, or of the operation that it is the graph of. -/
theorem check_iff_holds (n : Nat) :
    (∀ (which : RelationProperty) (p : Problem) (b : Solution) (answer : Bool),
      which.problem n = .ok p → p.check b = .ok answer →
      ∃ t, b.find? relationVariable = some t ∧ t.shape = [n, n] ∧
        (answer = true ↔ which.Holds (related t n n))) ∧
    ∀ (which : OperationProperty) (p : Problem) (b : Solution) (answer : Bool),
      which.problem n = .ok p → p.check b = .ok answer →
      ∃ t, b.find? operationVariable = some t ∧ t.shape = [n, n, n, n] ∧
        (answer = true ↔ ∃ m : Fin n → Fin n → Fin n → Fin n, IsOperation t m ∧ which.Holds m) := by
  refine ⟨fun which p b answer hp hcheck => ?_, fun which p b answer hp hcheck => ?_⟩
  · obtain ⟨hshapes, hformula⟩ := Problem.declare_single hp
    obtain ⟨hbound, hcompute⟩ := Problem.check_ok hcheck
    rw [hshapes, List.forall_mem_singleton] at hbound
    obtain ⟨t, hfind, hshape⟩ := hbound
    rw [hformula] at hcompute
    exact ⟨t, hfind, hshape, RelationProperty.holds_iff hshape (holds_of_compute hfind hcompute)⟩
  · obtain ⟨hshapes, hformula⟩ := Problem.declare_single hp
    obtain ⟨hbound, hcompute⟩ := Problem.check_ok hcheck
    rw [hshapes, List.forall_mem_singleton] at hbound
    obtain ⟨t, hfind, hshape⟩ := hbound
    rw [hformula] at hcompute
    obtain ⟨function, holds, hfunction, hholds, rfl⟩ := both_of_compute hcompute
    have hrank : [n, n, n].length < 26 := Nat.lt_of_sub_eq_succ rfl
    have hgraph := (isFunction_iff hshape hrank (holds_of_compute hfind hfunction)).trans
      isGraph_iff_operation
    have hlaws {m : Fin n → Fin n → Fin n → Fin n} (hm : IsOperation t m) :=
      OperationProperty.holds_iff hshape hm (holds_of_compute hfind hholds)
    refine ⟨t, hfind, hshape, ?_⟩
    rw [Bool.and_eq_true, hgraph]
    constructor
    · rintro ⟨⟨m, hm⟩, hholds⟩
      exact ⟨m, hm, (hlaws hm).mp hholds⟩
    · rintro ⟨m, hm, hholds⟩
      exact ⟨⟨m, hm⟩, (hlaws hm).mpr hholds⟩

/-- The order on two elements. -/
def orderSolution : Solution where
  entries := [(relationVariable, { shape := [2, 2], strides := [2, 1], offset := 0,
                                   buffer := #[true, true, false, true] })]
  ordered := List.pairwise_singleton _ _

/-- The graph of the median of three on two elements. -/
def medianSolution : Solution where
  entries := [(operationVariable,
    { shape := [2, 2, 2, 2], strides := [8, 4, 2, 1], offset := 0,
      buffer := #[true, true, true, false, true, false, false, false,
                  false, false, false, true, false, true, true, true] })]
  ordered := List.pairwise_singleton _ _

/-- All relations on two elements with the property. -/
def relationPair (which : RelationProperty) : Problem where
  shapes := { entries := [(relationVariable, [2, 2])], ordered := List.pairwise_singleton _ _ }
  formula := which.formula

def majorityPair : Problem where
  shapes := { entries := [(operationVariable, [2, 2, 2, 2])],
              ordered := List.pairwise_singleton _ _ }
  formula := OperationProperty.majority.formula

/-- The order is transitive and not symmetric, and the median is a majority operation. -/
theorem check_iff_holds_pair :
    (relationPair .transitive).check orderSolution = .ok true ∧
    (relationPair .symmetric).check orderSolution = .ok false ∧
    majorityPair.check medianSolution = .ok true ∧
    (∃ t, orderSolution.find? relationVariable = some t ∧
      RelationProperty.transitive.Holds (related t 2 2)) ∧
    (∃ t, orderSolution.find? relationVariable = some t ∧
      ¬ RelationProperty.symmetric.Holds (related t 2 2)) ∧
    ∃ t, medianSolution.find? operationVariable = some t ∧
      ∃ m : Fin 2 → Fin 2 → Fin 2 → Fin 2, IsOperation t m ∧
        OperationProperty.majority.Holds m := by
  have htransitive : (relationPair .transitive).check orderSolution = .ok true := by
    decide +kernel
  have hsymmetric : (relationPair .symmetric).check orderSolution = .ok false := by
    decide +kernel
  have hmajority : majorityPair.check medianSolution = .ok true := by decide +kernel
  obtain ⟨hrelations, hoperations⟩ := check_iff_holds 2
  refine ⟨htransitive, hsymmetric, hmajority, ?_, ?_, ?_⟩
  · obtain ⟨t, hfind, -, hiff⟩ := hrelations .transitive _ _ _ rfl htransitive
    exact ⟨t, hfind, hiff.mp rfl⟩
  · obtain ⟨t, hfind, -, hiff⟩ := hrelations .symmetric _ _ _ rfl hsymmetric
    exact ⟨t, hfind, fun h => Bool.false_ne_true (hiff.mpr h)⟩
  · obtain ⟨t, hfind, -, hiff⟩ := hoperations .majority _ _ _ rfl hmajority
    exact ⟨t, hfind, hiff.mp rfl⟩

end TensorLogic
