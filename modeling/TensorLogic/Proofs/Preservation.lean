import TensorLogic.Proofs.Comparisons
import TensorLogic.Proofs.Folds
import TensorLogic.Proofs.PredicateDemands
import TensorLogic.Relation.Galois

/-!
# Operations that preserve relations

`isPreserved` contracts two copies of a relation with one copy of the operation for each
coordinate. The letters of the copies make up three tuples, so what the contraction looks
for is two tuples of the relation that the operation takes, coordinate by coordinate, to
the index of the cell (`reached_get_iff`). The comparison with the relation then says that it
is preserved (`isPreserved_iff`).

The matrix of a Galois connection has one such answer for each slice of one stack and
each slice of the other. The rows come from a nested loop, which visits the pairs in the
order of the indices of the matrix (`rows_cells`).
-/

namespace TensorLogic.Relation

open Tensor

variable {rel op reached : Tensor Bool} {n k : Nat}

/-! ## Letters of tuples -/

/-- The letters of the coordinates of a tuple, from a first one on. -/
def tupleLetters (first k : Nat) : List Char :=
  (List.range k).map fun i => letters.getD (first + i) 'a'

/-- The letters of the graph of the operation at one coordinate. -/
def graphLetters (k i : Nat) : List Char :=
  [letters.getD (2 * k + i) 'a', letters.getD (0 + i) 'a', letters.getD (k + i) 'a']

/-- The letters of both tuples and of the value. -/
def allLetters (k : Nat) : List Char :=
  tupleLetters 0 k ++ (tupleLetters k k ++ tupleLetters (2 * k) k)

theorem preservationLabels_eq (k : Nat) : preservationLabels k =
    (String.ofList (tupleLetters 0 k), String.ofList (tupleLetters k k),
      String.ofList (tupleLetters (2 * k) k),
      (List.range k).map fun i => String.ofList (graphLetters k i)) := by
  simp only [preservationLabels, tupleLetters, graphLetters, Nat.zero_add]

theorem nodup_allLetters : ∀ k ∈ List.range' 1 8, (allLetters k).Nodup := by
  decide +kernel

theorem length_tupleLetters {first : Nat} : (tupleLetters first k).length = k := by
  rw [tupleLetters, List.length_map, List.length_range]

theorem mem_tupleLetters {first i : Nat} (hi : i < k) :
    letters.getD (first + i) 'a' ∈ tupleLetters first k :=
  List.mem_map.mpr ⟨i, List.mem_range.mpr hi, rfl⟩

theorem forall_mem_allLetters {P : Char → Prop} : (∀ c ∈ allLetters k, P c) ↔
    (∀ c ∈ tupleLetters 0 k, P c) ∧ (∀ c ∈ tupleLetters k k, P c) ∧
      ∀ c ∈ tupleLetters (2 * k) k, P c := by
  simp only [allLetters, List.forall_mem_append]

theorem forall_mem_graphLetters {i : Nat} (hi : i < k) {P : Char → Prop}
    (h : ∀ c ∈ allLetters k, P c) : ∀ c ∈ graphLetters k i, P c := by
  obtain ⟨hleft, hright, hvalue⟩ := forall_mem_allLetters.mp h
  intro c hc
  simp only [graphLetters, List.mem_cons, List.not_mem_nil, or_false] at hc
  rcases hc with rfl | rfl | rfl
  · exact hvalue _ (mem_tupleLetters hi)
  · exact hleft _ (mem_tupleLetters hi)
  · exact hright _ (mem_tupleLetters hi)

theorem map_graphLetters {i : Nat} (hi : i < k) (π : Char → Nat) :
    (graphLetters k i).map π = [((tupleLetters (2 * k) k).map π).getD i 0,
      ((tupleLetters 0 k).map π).getD i 0, ((tupleLetters k k).map π).getD i 0] := by
  simp [graphLetters, tupleLetters, List.getD_eq_getElem?_getD, hi]

/-! ## The contraction -/

/-- Two copies of the relation, and one of the operation for each coordinate. -/
def preservedOperands (rel op : Tensor Bool) (k : Nat) : List (Labelled Bool) :=
  [rel.named (String.ofList (tupleLetters 0 k)), rel.named (String.ofList (tupleLetters k k))] ++
    (List.range k).map fun i => op.named (String.ofList (graphLetters k i))

theorem forall_mem_preservedOperands {P : Labelled Bool → Prop} :
    (∀ operand ∈ preservedOperands rel op k, P operand) ↔
      P (rel.named (String.ofList (tupleLetters 0 k))) ∧
      P (rel.named (String.ofList (tupleLetters k k))) ∧
      ∀ i < k, P (op.named (String.ofList (graphLetters k i))) := by
  simp [preservedOperands]

/-- The operation takes two tuples to a third one, coordinate by coordinate. -/
def Takes (op : Tensor Bool) (k : Nat) (u v w : Index) : Prop :=
  ∀ i < k, op.get [w.getD i 0, u.getD i 0, v.getD i 0] = .ok true

/-- The operation takes any two tuples of the relation to tuples of the relation only. -/
def Preserves (op rel : Tensor Bool) (n k : Nat) : Prop :=
  ∀ u ∈ Shape.indices (List.replicate k n), ∀ v ∈ Shape.indices (List.replicate k n),
    ∀ w ∈ Shape.indices (List.replicate k n),
      rel.get u = .ok true → rel.get v = .ok true → Takes op k u v w → rel.get w = .ok true

theorem holds_preservedOperands_iff (π : Char → Nat) :
    (∀ operand ∈ preservedOperands rel op k, operand.cellAt π = .ok true) ↔
      rel.get ((tupleLetters 0 k).map π) = .ok true ∧
      rel.get ((tupleLetters k k).map π) = .ok true ∧
      Takes op k ((tupleLetters 0 k).map π) ((tupleLetters k k).map π)
        ((tupleLetters (2 * k) k).map π) := by
  simp only [forall_mem_preservedOperands, cellAt_named, Takes]
  refine and_congr_right' (and_congr_right' (forall₂_congr fun i hi => ?_))
  rw [map_graphLetters hi]

theorem map_tupleLetters (first k n : Nat) :
    (tupleLetters first k).map (fun _ => n) = List.replicate k n := by
  rw [List.map_const', length_tupleLetters]

/-- An assignment to the letters of a tuple is a tuple. -/
theorem tuple_mem_indices {first : Nat} {π : Char → Nat} :
    (tupleLetters first k).map π ∈ Shape.indices (List.replicate k n) ↔
      Within (fun _ => n) (tupleLetters first k) π := by
  rw [← map_tupleLetters first, map_mem_indices]

theorem sized_preservedOperands (hrel : rel.shape = List.replicate k n)
    (hop : op.shape = [n, n, n]) : Join.Sized (fun _ => n) (preservedOperands rel op k) := by
  refine forall_mem_preservedOperands.mpr ⟨?_, ?_, fun i _ => ?_⟩
  · rw [letters_named, map_tupleLetters]
    exact hrel
  · rw [letters_named, map_tupleLetters]
    exact hrel
  · rw [letters_named]
    exact hop

theorem exists_tuples {u v w : Index} (hnodup : (allLetters k).Nodup) (hu : u.length = k)
    (hv : v.length = k) (hw : w.length = k) : ∃ π : Char → Nat,
      (tupleLetters 0 k).map π = u ∧ (tupleLetters k k).map π = v ∧
        (tupleLetters (2 * k) k).map π = w := by
  have hlen : (u ++ (v ++ w)).length = (allLetters k).length := by
    simp [allLetters, length_tupleLetters, hu, hv, hw]
  obtain ⟨π, hπ⟩ := exists_assignment hnodup hlen
  rw [allLetters, List.map_append, List.map_append] at hπ
  obtain ⟨hleft, hπ⟩ := List.append_inj hπ (by simp [length_tupleLetters, hu])
  obtain ⟨hright, hvalue⟩ := List.append_inj hπ (by simp [length_tupleLetters, hv])
  exact ⟨π, hleft, hright, hvalue⟩

/-- A cell of the contraction holds if the operation takes two tuples of the relation to
the index of the cell. -/
theorem reached_get_iff (hleast : 1 ≤ k) (hmost : k ≤ 8) (hrel : rel.shape = List.replicate k n)
    (hop : op.shape = [n, n, n])
    (h : (truthValues.reduce .any (String.ofList (tupleLetters (2 * k) k)) .and
      (preservedOperands rel op k)).value = .ok reached)
    {w : Index} (hw : w ∈ Shape.indices (List.replicate k n)) :
    reached.get w = .ok true ↔
      ∃ u ∈ Shape.indices (List.replicate k n), ∃ v ∈ Shape.indices (List.replicate k n),
        rel.get u = .ok true ∧ rel.get v = .ok true ∧ Takes op k u v w := by
  have hnodup := nodup_allLetters k (List.mem_range'_1.mpr ⟨hleast, by omega⟩)
  have hlength {u : Index} (hu : u ∈ Shape.indices (List.replicate k n)) : u.length = k :=
    (Shape.length_of_mem_indices hu).trans List.length_replicate
  obtain ⟨ρ, -, -, rfl⟩ := exists_tuples hnodup (hlength hw) (hlength hw) (hlength hw)
  have hρ : Within (fun _ => n) (String.ofList (tupleLetters (2 * k) k)).toList ρ := by
    rw [String.toList_ofList]
    exact tuple_mem_indices.mp hw
  obtain ⟨b, hget, hb⟩ := Quantifies.any.reduce_iff h (sized_preservedOperands hrel hop) hρ
  rw [String.toList_ofList] at hget
  rw [hget, Except.ok.injEq, hb]
  simp only [holds_preservedOperands_iff]
  constructor
  · rintro ⟨π, hπ, hu, hv, htakes⟩
    have hvalue : (tupleLetters (2 * k) k).map π = (tupleLetters (2 * k) k).map ρ :=
      List.map_congr_left fun c hc => hπ.output_eq c (by rwa [String.toList_ofList])
    obtain ⟨hleft, hright, -⟩ := forall_mem_preservedOperands.mp hπ.within
    rw [letters_named, ← tuple_mem_indices] at hleft hright
    exact ⟨_, hleft, _, hright, hu, hv, hvalue ▸ htakes⟩
  · rintro ⟨u, hu, v, hv, hrelu, hrelv, htakes⟩
    obtain ⟨π, rfl, rfl, hvalue⟩ := exists_tuples hnodup (hlength hu) (hlength hv) (hlength hw)
    have hleft := tuple_mem_indices.mp hu
    have hright := tuple_mem_indices.mp hv
    have hwithin : Within (fun _ => n) (allLetters k) π :=
      forall_mem_allLetters.mpr ⟨hleft, hright, tuple_mem_indices.mp (hvalue ▸ hw)⟩
    refine ⟨π, ⟨?_, forall_mem_preservedOperands.mpr ⟨?_, ?_, fun i hi => ?_⟩⟩, hrelu, hrelv,
      hvalue ▸ htakes⟩
    · rw [String.toList_ofList]
      exact List.map_inj_left.mp hvalue
    · rw [letters_named]
      exact hleft
    · rw [letters_named]
      exact hright
    · rw [letters_named]
      exact forall_mem_graphLetters hi hwithin

theorem isPreserved_iff (hrel : rel.shape = List.replicate k n) (hop : op.shape = [n, n, n])
    {b : Bool} (h : (isPreserved truthValues rel op).value = .ok b) :
    b = true ↔ Preserves op rel n k := by
  have hrank : rel.rank = k := by rw [Tensor.rank, hrel, List.length_replicate]
  obtain ⟨_, -, h⟩ := Run.lift_bind_eq_ok.mp (Run.value_eq_ok.mp h)
  dsimp only at h
  split at h
  · cases h
  next harity =>
  obtain ⟨_, -, h⟩ := Run.lift_bind_eq_ok.mp h
  rw [hrank, preservationLabels_eq] at h
  dsimp only at h
  rw [List.map_map] at h
  obtain ⟨reached, s, hreduce, h⟩ := Run.bind_eq_ok.mp h
  have hreached := Run.value_eq_ok.mpr hreduce
  have hshape : reached.shape = List.replicate k n := by
    rw [(Join.reduce_sized (reduce_lifted hreached) (sized_preservedOperands hrel hop)).1,
      String.toList_ofList, map_tupleLetters]
  have hsize : k = reached.rank := by rw [Tensor.rank, hshape, List.length_replicate]
  obtain ⟨-, hb⟩ := Compares.leq.folded_iff hsize (Run.value_eq_ok.mpr h)
  have hget {w : Index} := reached_get_iff (w := w) (by omega) (by omega) hrel hop hreached
  rw [hb, hshape]
  constructor
  · intro hleq u hu v hv w hw hrelu hrelv htakes
    exact hleq w hw ((hget hw).mpr ⟨u, hu, v, hv, hrelu, hrelv, htakes⟩)
  · intro hpreserves w hw hcell
    obtain ⟨u, hu, v, hv, hrelu, hrelv, htakes⟩ := (hget hw).mp hcell
    exact hpreserves u hu v hv w hw hrelu hrelv htakes

/-! ## The matrix -/

variable {ops rels g : Tensor Bool}

/-- The cells of a matrix, row by row. -/
theorem rows_cells {F : Nat → Nat → Except Fault Bool} {rows : List (List Bool)} {f r : Nat}
    (h : (List.range f).mapM (fun i => (List.range r).mapM (F i)) = .ok rows) :
    List.Forall₂ (fun index cell => F (index.getD 0 0) (index.getD 1 0) = .ok cell)
      (Shape.indices [f, r]) rows.flatten := by
  have hindices : Shape.indices [f, r] =
      ((List.range f).map fun i => (List.range r).map fun j => [i, j]).flatten := by
    have hrow : Shape.indices [r] = (List.range r).map ([·]) := List.map_eq_flatMap.symm
    rw [Shape.indices, hrow, List.flatMap_def]
    simp only [List.map_map, Function.comp_def]
  rw [hindices]
  refine List.rel_flatten ?_
  rw [List.forall₂_map_left_iff]
  refine (mapM_eq_ok.mp h).imp fun i row hrow => ?_
  rw [List.forall₂_map_left_iff]
  exact mapM_eq_ok.mp hrow

/-- Each cell of the matrix is the answer for its slices. -/
theorem galoisConnection_cells {front front' : Shape} {f r : Nat} (hops : ops.shape = front ++ [f])
    (hrels : rels.shape = front' ++ [r]) (h : galoisConnection ops rels = .ok g) :
    g.shape = [f, r] ∧ ∀ i < f, ∀ j < r, ∃ b, g.get [i, j] = .ok b ∧
      (isPreserved truthValues (rels.slice j) (ops.slice i)).value = .ok b := by
  obtain ⟨_, hleft, h⟩ := bind_eq_ok.mp h
  obtain ⟨_, hright, h⟩ := bind_eq_ok.mp h
  obtain rfl := unconcat_ok hleft hops
  obtain rfl := unconcat_ok hright hrels
  obtain ⟨_, -, h⟩ := bind_eq_ok.mp h
  obtain ⟨_, -, h⟩ := bind_eq_ok.mp h
  obtain ⟨rows, hrows, hcells⟩ := bind_eq_ok.mp h
  simp only [List.length_map, List.length_range, List.mapM_map] at hrows hcells
  have hentries := rows_cells hrows
  refine ⟨(ofCells_filled hcells).shape_eq, fun i hi j hj => ?_⟩
  exact forall₂_both (ofCells_cells hcells hentries.length_eq) hentries _
    (Shape.pair_mem_indices hi hj)

/-- `isPreserved` says whether the operation preserves the relation, and the matrix of a
Galois connection says it of each slice of the operations, by rows, and each slice of the
relations, by columns. -/
theorem preservation_spec (n k : Nat) :
    (∀ rel op b, rel.shape = List.replicate k n → op.shape = [n, n, n] →
      (isPreserved truthValues rel op).value = .ok b → (b = true ↔ Preserves op rel n k)) ∧
    ∀ ops rels f r g, ops.shape = [n, n, n, f] → rels.shape = List.replicate k n ++ [r] →
      galoisConnection ops rels = .ok g →
      g.shape = [f, r] ∧ ∀ i < f, ∀ j < r, ∃ b, g.get [i, j] = .ok b ∧
        (isPreserved truthValues (rels.slice j) (ops.slice i)).value = .ok b ∧
        (b = true ↔ Preserves (ops.slice i) (rels.slice j) n k) := by
  refine ⟨fun rel op b hrel hop h => isPreserved_iff hrel hop h,
    fun ops rels f r g hops hrels h => ?_⟩
  have hops' : ops.shape = [n, n, n] ++ [f] := hops
  obtain ⟨hshape, hcells⟩ := galoisConnection_cells hops' hrels h
  refine ⟨hshape, fun i hi j hj => ?_⟩
  obtain ⟨b, hget, hb⟩ := hcells i hi j hj
  have hrel : (rels.slice j).shape = List.replicate k n := by
    rw [slice, hrels, List.dropLast_concat]
  have hop : (ops.slice i).shape = [n, n, n] := by
    rw [slice, hops]
    rfl
  exact ⟨b, hget, hb, isPreserved_iff hrel hop hb⟩

/-- The minimum, and the constant operation 1, on two elements. -/
def minimumAndOne : Tensor Bool :=
  { shape := [2, 2, 2, 2], strides := [8, 4, 2, 1], offset := 0,
    buffer := #[true, false, true, false, true, false, false, false,
                false, true, false, true, false, true, true, true] }

/-- The unary relations with one element of two. -/
def singletons : Tensor Bool :=
  { shape := [2, 2], strides := [2, 1], offset := 0, buffer := #[true, false, false, true] }

theorem preservation_spec_minimum :
    Preserves (minimumAndOne.slice 0) (singletons.slice 0) 2 1 ∧
    ∃ g, galoisConnection minimumAndOne singletons = .ok g ∧ g.shape = [2, 2] ∧
      ∃ b, g.get [1, 0] = .ok b ∧
        (b = true ↔ Preserves (minimumAndOne.slice 1) (singletons.slice 0) 2 1) := by
  obtain ⟨hpreserved, hmatrix⟩ := preservation_spec 2 1
  refine ⟨(hpreserved _ _ true rfl rfl (by decide +kernel)).mp rfl, ?_⟩
  obtain ⟨g, hg⟩ : ∃ g, galoisConnection minimumAndOne singletons = .ok g := ⟨_, rfl⟩
  obtain ⟨hshape, hcells⟩ := hmatrix _ _ 2 2 g rfl rfl hg
  obtain ⟨b, hget, -, hb⟩ := hcells 1 (by decide) 0 (by decide)
  exact ⟨g, hg, hshape, b, hget, hb⟩

end TensorLogic.Relation
