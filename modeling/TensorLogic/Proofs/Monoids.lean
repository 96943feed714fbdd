import Mathlib.Logic.Relation
import TensorLogic.Proofs.Functions
import TensorLogic.Relation.Monoid

/-!
# Monoids of maps

`isMonoid` contracts twice and then asks whether the result is the graph of a function:
for any two maps there has to be exactly one map that is their composite. That is what
it decides, for tensors whose slices are any relations at all (`isMonoid_spec`).

It is meant to decide that the maps are pairwise distinct and closed under composition.
Distinct maps are never compared with each other, though. A repetition shows only where
a repeated map is a composite, and then in the answer `false`; among maps that are no
composites it stays hidden (`isMonoid_repeated`). The two readings agree as soon as every
map is a composite, as with an identity among them.
-/

namespace TensorLogic.Relation

variable {t composed equal : Tensor Bool} {n m : Nat}

/-- The labels of elements range over `n`, those of maps over `m`. -/
def mapExtent (n m : Nat) : Char → Nat
  | 'i' | 'j' | 'k' => m
  | _ => n

/-- The operands of the composite: `x = fᵢ(fⱼ(z))`, with `y` in between. -/
def compositeOperands (t : Tensor Bool) : List (Labelled Bool) :=
  [t.named "xyi", t.named "yzj"]

/-- The operands of the comparison of a composite with a map. -/
def comparisonOperands (composed t : Tensor Bool) : List (Labelled Bool) :=
  [composed.named "xzij", t.named "xzk"]

/-! ## The composites -/

theorem sized_composite (h : t.shape = [n, n, m]) :
    Join.Sized (mapExtent n m) (compositeOperands t) := by
  intro operand hoperand
  have hcases : operand = t.named "xyi" ∨ operand = t.named "yzj" := by
    simpa [compositeOperands] using hoperand
  rcases hcases with rfl | rfl
  · show t.shape = "xyi".toList.map (mapExtent n m)
    exact h
  · show t.shape = "yzj".toList.map (mapExtent n m)
    exact h

theorem foldedLabels_composite : Join.foldedLabels "xzij" (compositeOperands t) = ['y'] := by
  simp [Join.foldedLabels, compositeOperands, Labelled.letters, Tensor.named,
    List.eraseDups_cons]

theorem jointLabels_composite :
    Join.jointLabels "xzij" (compositeOperands t) = ['x', 'z', 'i', 'j', 'y'] := by
  rw [Join.jointLabels, foldedLabels_composite]
  rfl

theorem jointCell_composite (x y z i j : Nat) (combine : List Bool → Except Fault Bool) :
    Join.jointCell "xzij" (compositeOperands t) combine [x, z, i, j, y] = (do
      let a ← t.get [x, y, i]
      let b ← t.get [y, z, j]
      combine [a, b]) := by
  have hleft : (t.named "xyi").read ['x', 'z', 'i', 'j', 'y'] [x, z, i, j, y] =
      t.get [x, y, i] := by
    show t.get ("xyi".toList.map _) = _
    rfl
  have hright : (t.named "yzj").read ['x', 'z', 'i', 'j', 'y'] [x, z, i, j, y] =
      t.get [y, z, j] := by
    show t.get ("yzj".toList.map _) = _
    rfl
  rw [Join.jointCell, Join.readAll, jointLabels_composite, compositeOperands]
  simp only [List.mapM_cons, List.mapM_nil, hleft, hright, bind_assoc, pure_bind]

theorem connect_and_eq_true {x y : Except Fault Bool} :
    (do
      let a ← x
      let b ← y
      (truthValues.connect .and [a, b]).value) = .ok true ↔ x = .ok true ∧ y = .ok true := by
  simp only [bind_eq_ok]
  constructor
  · rintro ⟨a, rfl, b, rfl, h⟩
    have hand : (a && (b && true)) = true := Except.ok.inj h
    simpa using hand
  · rintro ⟨rfl, rfl⟩
    exact ⟨true, rfl, true, rfl, rfl⟩

theorem composed_spec (h : t.shape = [n, n, m])
    (hc : (truthValues.reduce .any "xzij" .and (compositeOperands t)).value = .ok composed) :
    composed.shape = [n, n, m, m] ∧
      ∀ x z i j, x < n → z < n → i < m → j < m → ∃ b, composed.get [x, z, i, j] = .ok b ∧
        (b = true ↔ ∃ y, y < n ∧ t.get [x, y, i] = .ok true ∧ t.get [y, z, j] = .ok true) := by
  have hshape : composed.shape = [n, n, m, m] :=
    (Join.reduce_sized (reduce_lifted hc) (sized_composite h)).1
  refine ⟨hshape, fun x z i j hx hz hi hj => ?_⟩
  have hindex : [x, z, i, j] ∈ composed.shape.indices := by
    rw [hshape]
    simp [Shape.mem_indices_cons, Shape.mem_indices_nil, hx, hz, hi, hj]
  obtain ⟨b, hget, hb⟩ := reduce_any_iff hc (sized_composite h) hindex
  refine ⟨b, hget, ?_⟩
  have hy : ['y'].map (mapExtent n m) = [n] := rfl
  rw [hb, foldedLabels_composite, hy]
  simp only [Shape.mem_indices_cons, Shape.mem_indices_nil, exists_eq_left,
    exists_exists_and_eq_and, List.cons_append, List.nil_append, jointCell_composite,
    connect_and_eq_true]

/-! ## The comparison with each map -/

theorem sized_comparison (hc : composed.shape = [n, n, m, m]) (h : t.shape = [n, n, m]) :
    Join.Sized (mapExtent n m) (comparisonOperands composed t) := by
  intro operand hoperand
  have hcases : operand = composed.named "xzij" ∨ operand = t.named "xzk" := by
    simpa [comparisonOperands] using hoperand
  rcases hcases with rfl | rfl
  · show composed.shape = "xzij".toList.map (mapExtent n m)
    exact hc
  · show t.shape = "xzk".toList.map (mapExtent n m)
    exact h

theorem foldedLabels_comparison :
    Join.foldedLabels "kij" (comparisonOperands composed t) = ['x', 'z'] := by
  simp [Join.foldedLabels, comparisonOperands, Labelled.letters, Tensor.named,
    List.eraseDups_cons]

theorem jointLabels_comparison :
    Join.jointLabels "kij" (comparisonOperands composed t) = ['k', 'i', 'j', 'x', 'z'] := by
  rw [Join.jointLabels, foldedLabels_comparison]
  rfl

theorem jointCell_comparison (k i j x z : Nat) (combine : List Bool → Except Fault Bool) :
    Join.jointCell "kij" (comparisonOperands composed t) combine [k, i, j, x, z] = (do
      let a ← composed.get [x, z, i, j]
      let b ← t.get [x, z, k]
      combine [a, b]) := by
  have hleft : (composed.named "xzij").read ['k', 'i', 'j', 'x', 'z'] [k, i, j, x, z] =
      composed.get [x, z, i, j] := by
    show composed.get ("xzij".toList.map _) = _
    rfl
  have hright : (t.named "xzk").read ['k', 'i', 'j', 'x', 'z'] [k, i, j, x, z] =
      t.get [x, z, k] := by
    show t.get ("xzk".toList.map _) = _
    rfl
  rw [Join.jointCell, Join.readAll, jointLabels_comparison, comparisonOperands]
  simp only [List.mapM_cons, List.mapM_nil, hleft, hright, bind_assoc, pure_bind]

theorem connect_equ_eq_true {x y : Except Fault Bool} :
    (do
      let a ← x
      let b ← y
      (truthValues.connect .equ [a, b]).value) = .ok true ↔ ∃ v, x = .ok v ∧ y = .ok v := by
  simp only [bind_eq_ok]
  constructor
  · rintro ⟨a, rfl, b, rfl, h⟩
    have heq : (a == b) = true := Except.ok.inj h
    rw [eq_of_beq heq]
    exact ⟨b, rfl, rfl⟩
  · rintro ⟨v, rfl, rfl⟩
    exact ⟨v, rfl, v, rfl, congrArg Except.ok (beq_self_eq_true v)⟩

/-- The slices of a monoid, as relations between a value and an argument. -/
def mapOf (t : Tensor Bool) (n m : Nat) (k : Fin m) (x y : Fin n) : Prop :=
  t.get [x, y, k] = .ok true

theorem equal_spec (h : t.shape = [n, n, m]) (hread : t.Readable)
    (hc : (truthValues.reduce .any "xzij" .and (compositeOperands t)).value = .ok composed)
    (he : (truthValues.reduce .all "kij" .equ (comparisonOperands composed t)).value =
      .ok equal) :
    equal.shape = [m, m, m] ∧ ∀ k i j : Fin m,
      (equal.get [k, i, j] = .ok true ↔
        mapOf t n m k = Relation.Comp (mapOf t n m i) (mapOf t n m j)) := by
  obtain ⟨hcshape, hcells⟩ := composed_spec h hc
  have hsized := sized_comparison hcshape h
  have hshape : equal.shape = [m, m, m] := (Join.reduce_sized (reduce_lifted he) hsized).1
  refine ⟨hshape, fun k i j => ?_⟩
  have hindex : [k.val, i.val, j.val] ∈ equal.shape.indices := by
    rw [hshape]
    simp [Shape.mem_indices_cons, Shape.mem_indices_nil]
  obtain ⟨b, hget, hb⟩ := reduce_all_iff he hsized hindex
  have hxz : ['x', 'z'].map (mapExtent n m) = [n, n] := rfl
  rw [hget, Except.ok.injEq, hb, foldedLabels_comparison, hxz]
  have hcell : ∀ x z : Fin n,
      Join.jointCell "kij" (comparisonOperands composed t)
          (fun cells => (truthValues.connect .equ cells).value)
          [k.val, i.val, j.val, x.val, z.val] = .ok true ↔
        (mapOf t n m k x z ↔ Relation.Comp (mapOf t n m i) (mapOf t n m j) x z) := by
    intro x z
    obtain ⟨c, hc, hiff⟩ := hcells x z i j x.isLt z.isLt i.isLt j.isLt
    have hxz : [x.val, z.val, k.val] ∈ t.shape.indices := by
      rw [h]
      simp [Shape.mem_indices_cons, Shape.mem_indices_nil]
    obtain ⟨v, hv⟩ := hread _ hxz
    have hcomp : c = true ↔ Relation.Comp (mapOf t n m i) (mapOf t n m j) x z := by
      rw [hiff]
      constructor
      · rintro ⟨y, hy, hleft, hright⟩
        exact ⟨⟨y, hy⟩, hleft, hright⟩
      · rintro ⟨y, hleft, hright⟩
        exact ⟨y, y.isLt, hleft, hright⟩
    rw [jointCell_comparison, connect_equ_eq_true, ← hcomp, mapOf, hc, hv]
    simp only [Except.ok.injEq]
    cases c <;> cases v <;> simp
  constructor
  · intro hall
    funext x z
    refine propext ((hcell x z).mp (hall [x, z] ?_))
    simp [Shape.mem_indices_cons, Shape.mem_indices_nil]
  · intro heq index hindex
    simp only [Shape.mem_indices_cons, Shape.mem_indices_nil] at hindex
    obtain ⟨x, hx, _, ⟨z, hz, _, rfl, rfl⟩, rfl⟩ := hindex
    refine (hcell ⟨x, hx⟩ ⟨z, hz⟩).mpr ?_
    rw [heq]

/-! ## The check as a whole -/

theorem existsUnique_fin {P : Nat → Prop} :
    (∃! k, k < m ∧ P k) ↔ ∃! k : Fin m, P k := by
  constructor
  · rintro ⟨k, ⟨hk, hP⟩, honly⟩
    exact ⟨⟨k, hk⟩, hP, fun k' hP' => Fin.ext (honly k' ⟨k'.isLt, hP'⟩)⟩
  · rintro ⟨k, hP, honly⟩
    exact ⟨k, ⟨k.isLt, hP⟩, fun k' h => congrArg Fin.val (honly ⟨k', h.1⟩ h.2)⟩

theorem isGraph_square :
    IsGraph t m [m, m] ↔ ∀ i j : Fin m, ∃! k : Fin m, t.get [k, i, j] = .ok true := by
  constructor
  · intro h i j
    refine existsUnique_fin.mp (h [i, j] ?_)
    simp [Shape.mem_indices_cons, Shape.mem_indices_nil]
  · intro h index hindex
    simp only [Shape.mem_indices_cons, Shape.mem_indices_nil] at hindex
    obtain ⟨i, hi, _, ⟨j, hj, _, rfl, rfl⟩, rfl⟩ := hindex
    exact existsUnique_fin.mpr (h ⟨i, hi⟩ ⟨j, hj⟩)

theorem isMonoid_eq (h : t.shape = [n, n, m]) :
    isMonoid truthValues t = (do
      let composed ← truthValues.reduce .any "xzij" .and (compositeOperands t)
      let equal ← truthValues.reduce .all "kij" .equ (comparisonOperands composed t)
      isFunction truthValues equal) := by
  have hsize : monoidSize t = .ok n := by
    rw [monoidSize, h]
    exact if_pos rfl
  rw [isMonoid, hsize]
  rfl

theorem isMonoid_iff (h : t.shape = [n, n, m]) (hread : t.Readable) {b : Bool}
    (hb : (isMonoid truthValues t).value = .ok b) :
    b = true ↔ ∀ i j, ∃! k, mapOf t n m k = Relation.Comp (mapOf t n m i) (mapOf t n m j) := by
  have hrun := Run.value_eq_ok.mp hb
  rw [isMonoid_eq h] at hrun
  obtain ⟨composed, s, hc, hrun⟩ := Run.bind_eq_ok.mp hrun
  obtain ⟨equal, s', he, hrun⟩ := Run.bind_eq_ok.mp hrun
  obtain ⟨hshape, hcells⟩ :=
    equal_spec h hread (Run.value_eq_ok.mpr hc) (Run.value_eq_ok.mpr he)
  have htwo : [m, m].length < 26 := by simp
  rw [isFunction_iff hshape htwo (Run.value_eq_ok.mpr hrun), isGraph_square]
  simp only [hcells]

/-- The joint index spaces of the three contractions can be stored, and the coordinates of
the pairs that the second one folds. -/
structure Affordable (n m : Nat) : Prop where
  composed : Shape.Fillable [n, n, m, m, n] Bool
  equal : Shape.Fillable [m, m, m, n, n] Bool
  pairs : Shape.Blockable [n, n] Bool
  unique : Shape.Fillable [m, m, m] Bool

namespace Affordable

variable (ha : Affordable n m)
include ha

/-- With the joint index spaces, the results can be stored. -/
theorem square : Shape.Fillable [m, m] Bool := by
  rcases Nat.eq_zero_or_pos m with rfl | hm
  · exact ⟨⟨[0, 1], rfl, rfl⟩, rfl⟩
  · have hjoint : Shape.Fillable ([m, m] ++ [m]) Bool := ha.unique
    exact hjoint.init hm

theorem composites : Shape.Fillable [n, n, m, m] Bool := by
  rcases Nat.eq_zero_or_pos n with rfl | hn
  · exact ha.square.zero_cons.zero_cons
  · have hjoint : Shape.Fillable ([n, n, m, m] ++ [n]) Bool := ha.composed
    exact hjoint.init hn

theorem elements : Shape.Blockable [n] Bool := by
  refine ha.pairs.mono ?_
  simpa [Shape.cells] using Nat.le_mul_self n

/-- There are far fewer pairs than triples. -/
theorem mapPairs : Shape.Blockable [m, m] Bool := by
  have hcells : Shape.cells [m, m] = m * m := by simp [Shape.cells]
  refine .of_mul_lt (n := m) ?_ fun hm => ?_
  · rw [hcells]
    simpa [Shape.cells, Cell.width] using Size.reserve_ok_iff.mp ha.unique.reserved
  · rw [hcells]
    exact Nat.mul_le_mul (Nat.le_of_lt hm) (Nat.le_of_lt hm)

theorem maps : Shape.Blockable [m] Bool := by
  refine ha.mapPairs.mono ?_
  simpa [Shape.cells] using Nat.le_mul_self m

end Affordable

theorem composed_returns (h : t.shape = [n, n, m]) (hread : t.Readable)
    (ha : Affordable n m) :
    ∃ composed, (truthValues.reduce .any "xzij" .and (compositeOperands t)).value =
      .ok composed := by
  have hfits : Join.Fits "xzij" (compositeOperands t) (mapExtent n m) :=
    ⟨by simp [compositeOperands], sized_composite h, by decide,
      by simp [compositeOperands, Labelled.letters, Tensor.named]⟩
  refine reduce_truths_returns hfits ?_ ?_ ?_ ha.composites rfl
  · simpa [compositeOperands, Tensor.named] using hread
  · rw [jointLabels_composite]
    exact ha.composed
  · rw [foldedLabels_composite]
    exact ha.elements

theorem equal_returns (hc : composed.shape = [n, n, m, m]) (h : t.shape = [n, n, m])
    (hreadc : composed.Readable) (hread : t.Readable) (ha : Affordable n m) :
    ∃ equal, (truthValues.reduce .all "kij" .equ (comparisonOperands composed t)).value =
      .ok equal := by
  have hfits : Join.Fits "kij" (comparisonOperands composed t) (mapExtent n m) :=
    ⟨by simp [comparisonOperands], sized_comparison hc h, by decide,
      by simp [comparisonOperands, Labelled.letters, Tensor.named]⟩
  refine reduce_truths_returns hfits ?_ ?_ ?_ ha.unique rfl
  · simpa [comparisonOperands, Tensor.named] using ⟨hreadc, hread⟩
  · rw [jointLabels_comparison]
    exact ha.equal
  · rw [foldedLabels_comparison]
    exact ha.pairs

theorem isMonoid_returns (h : t.shape = [n, n, m]) (hread : t.Readable)
    (ha : Affordable n m) : ∃ b, (isMonoid truthValues t).value = .ok b := by
  obtain ⟨composed, hc⟩ := composed_returns h hread ha
  have hbounds := Join.inBounds_of_reduce (Run.value_eq_ok.mp hc)
  have hreadc := hbounds.readable
  obtain ⟨equal, he⟩ := equal_returns (composed_spec h hc).1 h hreadc hread ha
  have hbounds' := Join.inBounds_of_reduce (Run.value_eq_ok.mp he)
  have hreade := hbounds'.readable
  have htwo : [m, m].length < 26 := by simp
  obtain ⟨b, hb⟩ := isFunction_returns (equal_spec h hread hc he).1 htwo hreade
    ha.unique ha.maps ha.square ha.mapPairs
  refine ⟨b, Run.value_eq_ok.mpr ?_⟩
  rw [isMonoid_eq h]
  exact Run.bind_eq_ok.mpr ⟨composed, (), Run.value_eq_ok.mp hc, Run.bind_eq_ok.mpr
    ⟨equal, (), Run.value_eq_ok.mp he, Run.value_eq_ok.mp hb⟩⟩

/-! ## Distinct and closed -/

section Closure

variable {ι α : Type} (maps : ι → α → α → Prop)

/-- The composite of any two maps is one of the maps. -/
def ClosedUnderComposition : Prop :=
  ∀ i j, ∃ k, maps k = Relation.Comp (maps i) (maps j)

/-- Some two maps have this one as their composite. -/
def IsComposite (k : ι) : Prop :=
  ∃ i j, maps k = Relation.Comp (maps i) (maps j)

variable {maps}

/-- That a composite is exactly one of the maps forbids repetitions among composites,
and only there. -/
theorem uniquely_closed_iff :
    (∀ i j, ∃! k, maps k = Relation.Comp (maps i) (maps j)) ↔
      ClosedUnderComposition maps ∧
        ∀ k l, IsComposite maps k → maps k = maps l → k = l := by
  constructor
  · intro h
    refine ⟨fun i j => (h i j).exists, ?_⟩
    rintro k l ⟨i, j, hk⟩ hsame
    exact (h i j).unique hk (hsame ▸ hk)
  · rintro ⟨hclosed, honly⟩ i j
    obtain ⟨k, hk⟩ := hclosed i j
    refine ⟨k, hk, fun l hl => ?_⟩
    exact (honly k l ⟨i, j, hk⟩ (hk.trans hl.symm)).symm

end Closure

/-- The check returns, and says that the composite of any two slices is exactly one of
the slices. For distinct slices this is closure under composition; a repetition is found
among composites only. -/
theorem isMonoid_spec (h : t.shape = [n, n, m]) (hread : t.Readable) (ha : Affordable n m) :
    ∃ b, (isMonoid truthValues t).value = .ok b ∧
      (b = true ↔ ∀ i j, ∃! k, mapOf t n m k = Relation.Comp (mapOf t n m i) (mapOf t n m j)) ∧
      (b = true ↔ ClosedUnderComposition (mapOf t n m) ∧
        ∀ k l, IsComposite (mapOf t n m) k → mapOf t n m k = mapOf t n m l → k = l) ∧
      (Function.Injective (mapOf t n m) ∧ ClosedUnderComposition (mapOf t n m) → b = true) ∧
      ((∀ k, IsComposite (mapOf t n m) k) →
        (b = true ↔
          Function.Injective (mapOf t n m) ∧ ClosedUnderComposition (mapOf t n m))) := by
  obtain ⟨b, hb⟩ := isMonoid_returns h hread ha
  have hunique := isMonoid_iff h hread hb
  have hclosed := hunique.trans uniquely_closed_iff
  refine ⟨b, hb, hunique, hclosed, ?_, fun hall => ?_⟩
  · rintro ⟨hinj, hcomp⟩
    exact hclosed.mpr ⟨hcomp, fun k l _ hsame => hinj hsame⟩
  · rw [hclosed, and_comm]
    refine and_congr_left fun _ => ⟨fun h k l hsame => h k l (hall k) hsame, ?_⟩
    exact fun hinj k l _ hsame => hinj hsame

/-- The identity and the swap on two elements. -/
def swaps : Tensor Bool :=
  { shape := [2, 2, 2], strides := [4, 2, 1], offset := 0,
    buffer := #[true, false, false, true, false, true, true, false] }

theorem swaps_readable : swaps.Readable := by
  have hbounds : swaps.InBounds := ⟨rfl, by decide, by decide⟩
  exact hbounds.readable

theorem affordable_swaps : Affordable 2 2 :=
  ⟨by decide, by decide, by decide, by decide⟩

theorem isMonoid_spec_swaps :
    swaps.shape = [2, 2, 2] ∧ swaps.Readable ∧ Affordable 2 2 ∧
      ∃ b, (isMonoid truthValues swaps).value = .ok b ∧ b = true ∧
        ∀ i j, ∃! k, mapOf swaps 2 2 k = Relation.Comp (mapOf swaps 2 2 i) (mapOf swaps 2 2 j) := by
  obtain ⟨b, hb, hunique, -⟩ := isMonoid_spec rfl swaps_readable affordable_swaps
  have htrue : b = true := by
    have hrun : (isMonoid truthValues swaps).value = .ok true := by decide +kernel
    exact Except.ok.inj (hb.symm.trans hrun)
  exact ⟨rfl, swaps_readable, affordable_swaps, b, hb, htrue, hunique.mp htrue⟩

/-- The map `0 ↦ 1, 1 ↦ 2, 2 ↦ 2` twice, and the constant 2. Every composite of two of
them is the constant. -/
def repeatedMaps : Tensor Bool :=
  { shape := [3, 3, 3], strides := [9, 3, 1], offset := 0,
    buffer := #[false, false, false, false, false, false, false, false, false,
                true, true, false, false, false, false, false, false, false,
                false, false, true, true, true, true, true, true, true] }

/-- The constant is the composite of any two of these maps, and no other of them is. -/
theorem repeatedMaps_composites : ∀ i j : Fin 3, ∃! k,
    mapOf repeatedMaps 3 3 k =
      Relation.Comp (mapOf repeatedMaps 3 3 i) (mapOf repeatedMaps 3 3 j) := by
  have hcells : ∀ i j k : Fin 3, (∀ x z : Fin 3, repeatedMaps.get [x, z, k] = .ok true ↔
      ∃ y : Fin 3, repeatedMaps.get [x, y, i] = .ok true ∧
        repeatedMaps.get [y, z, j] = .ok true) ↔ k = 2 := by
    decide +kernel
  have hmaps : ∀ i j k, mapOf repeatedMaps 3 3 k =
      Relation.Comp (mapOf repeatedMaps 3 3 i) (mapOf repeatedMaps 3 3 j) ↔ k = 2 := by
    intro i j k
    rw [← hcells i j k, funext_iff]
    simp only [funext_iff, eq_iff_iff, mapOf, Relation.Comp]
  intro i j
  exact ⟨2, (hmaps i j 2).mpr rfl, fun k hk => (hmaps i j k).mp hk⟩

/-- A repetition among maps that are no composites is not found. -/
theorem isMonoid_repeated :
    repeatedMaps.shape = [3, 3, 3] ∧ repeatedMaps.Readable ∧ Affordable 3 3 ∧
      ¬((isMonoid truthValues repeatedMaps).value = .ok true ↔
        Function.Injective (mapOf repeatedMaps 3 3) ∧
          ClosedUnderComposition (mapOf repeatedMaps 3 3)) := by
  have hbounds : repeatedMaps.InBounds := ⟨rfl, by decide, by decide⟩
  have hread := hbounds.readable
  have haffordable : Affordable 3 3 :=
    ⟨by decide, by decide, by decide, by decide⟩
  have hrun : (isMonoid truthValues repeatedMaps).value = .ok true := by
    obtain ⟨b, hb⟩ := isMonoid_returns rfl hread haffordable
    rw [hb, (isMonoid_iff rfl hread hb).mpr repeatedMaps_composites]
  have hcells : ∀ x y : Fin 3,
      repeatedMaps.get [x, y, 0] = repeatedMaps.get [x, y, 1] := by decide
  have hsame : mapOf repeatedMaps 3 3 0 = mapOf repeatedMaps 3 3 1 := by
    funext x y
    exact congrArg (· = .ok true) (hcells x y)
  refine ⟨rfl, hread, haffordable, fun h => ?_⟩
  have hzero : (0 : Fin 3) = 1 := (h.mp hrun).1 hsame
  exact absurd hzero (by decide)

end TensorLogic.Relation
