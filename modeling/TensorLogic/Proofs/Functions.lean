import TensorLogic.Proofs.Truths
import TensorLogic.Relation.Operation

/-!
# Graphs of functions

The graph of an operation has the value on its first axis. `isFunction` labels the axes
by the letters of the alphabet, folds the first one by `one` and all others by `all`,
and so says that each tuple of arguments has exactly one value, whatever the number of
arguments is (`isFunction_iff`).
-/

namespace TensorLogic.Relation

variable {t r : Tensor Bool} {n : Nat} {rest : Shape} {c : Char} {labels : List Char}

/-- A graph, labelled with its value first. -/
def graphOperand (t : Tensor Bool) (c : Char) (labels : List Char) : Labelled Bool :=
  t.named (String.ofList (c :: labels))

theorem letters_graphOperand : (graphOperand t c labels).letters = c :: labels := by
  rw [Labelled.letters, graphOperand, Tensor.named, String.toList_ofList]

/-- Only the label of the value is folded. -/
theorem foldedLabels_graph (h : (c :: labels).Nodup) :
    Join.foldedLabels (String.ofList labels) [graphOperand t c labels] = [c] := by
  have hc : c ∉ labels := (List.nodup_cons.mp h).1
  rw [eq_singleton_iff Join.nodup_foldedLabels]
  intro d
  rw [Join.mem_foldedLabels, String.toList_ofList]
  constructor
  · rintro ⟨⟨operand, hoperand, hletter⟩, hnot⟩
    rw [List.mem_singleton.mp hoperand, letters_graphOperand, List.mem_cons] at hletter
    exact hletter.resolve_right hnot
  · rintro rfl
    refine ⟨⟨graphOperand t d labels, List.mem_singleton_self _, ?_⟩, hc⟩
    rw [letters_graphOperand]
    exact List.mem_cons_self

theorem jointLabels_graph (h : (c :: labels).Nodup) :
    Join.jointLabels (String.ofList labels) [graphOperand t c labels] = labels ++ [c] := by
  rw [Join.jointLabels, foldedLabels_graph h, String.toList_ofList]

/-- The joint index of a cell of the graph has the value behind the arguments. -/
theorem jointCell_graph (h : (c :: labels).Nodup) {k : Nat} {index : Index}
    (hlen : index.length = labels.length) :
    Join.jointCell (String.ofList labels) [graphOperand t c labels]
        (fun cells => (truthValues.connect .id cells).value) (index ++ [k]) =
      t.get (k :: index) := by
  have hnodup : (labels ++ [c]).Nodup :=
    (List.perm_append_singleton c labels).nodup_iff.mpr h
  have hjoint : (index ++ [k]).length = (labels ++ [c]).length := by simp [hlen]
  obtain ⟨ρ, hρ⟩ := exists_assignment hnodup hjoint
  have hsplit := hρ
  rw [List.map_append] at hsplit
  obtain ⟨hindex, hk⟩ := List.append_inj hsplit (by simp [hlen])
  have hcell : (graphOperand t c labels).cellAt ρ = t.get (k :: index) := by
    rw [Labelled.cellAt, letters_graphOperand, List.map_cons, hindex, (List.cons.inj hk).1]
    rfl
  rw [← hρ, ← jointLabels_graph h, Join.jointCell_map, ← hcell, Join.combinedAt,
    List.mapM_cons, List.mapM_nil]
  cases (graphOperand t c labels).cellAt ρ <;> rfl

theorem existsUnique_coordinate {P : Index → Prop} {n : Nat} :
    (∃! j, j ∈ Shape.indices [n] ∧ P j) ↔ ∃! k, k < n ∧ P [k] := by
  simp only [Shape.mem_indices_cons, Shape.mem_indices_nil, exists_eq_left]
  constructor
  · rintro ⟨j, ⟨⟨k, hk, rfl⟩, hP⟩, honly⟩
    exact ⟨k, ⟨hk, hP⟩, fun k' h => (List.cons.inj (honly [k'] ⟨⟨k', h.1, rfl⟩, h.2⟩)).1⟩
  · rintro ⟨k, ⟨hk, hP⟩, honly⟩
    refine ⟨[k], ⟨⟨k, hk, rfl⟩, hP⟩, ?_⟩
    rintro j ⟨⟨k', hk', rfl⟩, hP'⟩
    rw [honly k' ⟨hk', hP'⟩]

theorem reduce_graph_iff (hlabels : (c :: labels).Nodup) (hshape : t.shape = n :: rest)
    (h : (truthValues.reduce .one (String.ofList labels) .id
      [graphOperand t c labels]).value = .ok r) :
    r.shape = rest ∧ ∀ index ∈ Shape.indices rest,
      ∃ b, r.get index = .ok b ∧ (b = true ↔ ∃! k, k < n ∧ t.get (k :: index) = .ok true) := by
  obtain ⟨extent, hsized, hr, -⟩ := Join.reduce_cells (reduce_lifted h)
  have hextents := hsized _ (List.mem_singleton_self _)
  rw [letters_graphOperand, List.map_cons, graphOperand, Tensor.named, hshape] at hextents
  obtain ⟨rfl, rfl⟩ := List.cons.inj hextents
  rw [String.toList_ofList] at hr
  refine ⟨hr, fun index hindex => ?_⟩
  obtain ⟨b, hget, hb⟩ := reduce_one_iff h hsized (hr ▸ hindex)
  refine ⟨b, hget, ?_⟩
  have hlen : index.length = labels.length :=
    (Shape.length_of_mem_indices hindex).trans (List.length_map _)
  rw [hb, foldedLabels_graph hlabels, List.map_singleton, existsUnique_coordinate]
  simp only [jointCell_graph hlabels hlen]

/-! ## The labels of a graph -/

/-- The letters of the arguments, behind the letter of the value. -/
def argumentLetters (count : Nat) : List Char :=
  letters.tail.take count

theorem letters_take (count : Nat) : letters.take (count + 1) = 'a' :: argumentLetters count := by
  have hletters : letters = 'a' :: letters.tail := rfl
  rw [hletters, List.take_succ_cons]
  rfl

theorem length_argumentLetters {count : Nat} (h : count < 26) :
    (argumentLetters count).length = count := by
  have hlen : letters.tail.length = 25 := rfl
  rw [argumentLetters, List.length_take, hlen]
  omega

theorem nodup_graphLetters (count : Nat) : ('a' :: argumentLetters count).Nodup := by
  have hletters : letters.Nodup := by decide
  rw [← letters_take]
  exact hletters.sublist (List.take_sublist _ _)

theorem isFunction_eq (hshape : t.shape = n :: rest) (hrank : rest.length < 26) :
    isFunction truthValues t = (do
      let unique ← truthValues.reduce .one (String.ofList (argumentLetters rest.length)) .id
        [graphOperand t 'a' (argumentLetters rest.length)]
      let all ← truthValues.fold .all rest.length unique
      all.toScalar) := by
  have hrank' : t.rank = rest.length + 1 := by rw [Tensor.rank, hshape, List.length_cons]
  have hlabels : axisLabels .operation t.rank 1 =
      .ok (String.ofList ('a' :: argumentLetters rest.length)) := by
    rw [axisLabels, if_pos (by omega), hrank', letters_take]
  have hvalue : without (String.ofList ('a' :: argumentLetters rest.length)) 0 =
      String.ofList (argumentLetters rest.length) := by
    rw [without, String.toList_ofList]
    rfl
  unfold isFunction
  dsimp only
  rw [hlabels, hrank', Nat.add_sub_cancel]
  rw [← hvalue]
  rfl

/-- The graph has exactly one value for each tuple of arguments. -/
def IsGraph (t : Tensor Bool) (n : Nat) (rest : Shape) : Prop :=
  ∀ index ∈ Shape.indices rest, ∃! k, k < n ∧ t.get (k :: index) = .ok true

/-- Behind the first contraction only cells that hold or not are left. -/
theorem all_unique_iff (hshape : t.shape = n :: rest)
    (h : (truthValues.reduce .one (String.ofList labels) .id
      [graphOperand t c labels]).value = .ok r) (hlabels : (c :: labels).Nodup) :
    (∀ index ∈ r.shape.indices, r.get index = .ok true) ↔ IsGraph t n rest := by
  obtain ⟨hr, hcells⟩ := reduce_graph_iff hlabels hshape h
  rw [hr]
  refine forall₂_congr fun index hindex => ?_
  obtain ⟨b, hget, hb⟩ := hcells index hindex
  rw [hget, Except.ok.injEq, hb]

theorem isFunction_iff (hshape : t.shape = n :: rest) (hrank : rest.length < 26) {b : Bool}
    (h : (isFunction truthValues t).value = .ok b) : b = true ↔ IsGraph t n rest := by
  rw [isFunction_eq hshape hrank] at h
  obtain ⟨r, s, hreduce, h⟩ := Run.bind_eq_ok.mp (Run.value_eq_ok.mp h)
  have hr := Run.value_eq_ok.mpr hreduce
  have hrankr : rest.length = r.rank := by
    rw [Tensor.rank, (reduce_graph_iff (nodup_graphLetters _) hshape hr).1]
  rw [foldedAll_iff (Join.inBounds_of_reduce hreduce) hrankr (Run.value_eq_ok.mpr h),
    all_unique_iff hshape hr (nodup_graphLetters _)]

/-- The tensor is the graph of `f` on the argument tuples within `rest`. -/
structure GraphOf (t : Tensor Bool) (n : Nat) (rest : Shape) (f : Index → Nat) : Prop where
  shape_eq : t.shape = n :: rest
  value_lt {args : Index} : args ∈ rest.indices → f args < n
  holds_iff {args : Index} {v : Nat} : args ∈ rest.indices → v < n →
    (t.get (v :: args) = .ok true ↔ v = f args)

instance {f : Index → Nat} : Decidable (GraphOf t n rest f) :=
  decidable_of_iff (t.shape = n :: rest ∧ (∀ args ∈ rest.indices, f args < n) ∧
      ∀ args ∈ rest.indices, ∀ v < n, (t.get (v :: args) = .ok true ↔ v = f args))
    ⟨fun h => ⟨h.1, h.2.1 _, fun hargs hv => h.2.2 _ hargs _ hv⟩,
      fun h => ⟨h.shape_eq, fun _ => h.value_lt, fun _ hargs _ hv => h.holds_iff hargs hv⟩⟩

theorem isGraph_iff (hshape : t.shape = n :: rest) :
    IsGraph t n rest ↔ ∃ f, GraphOf t n rest f := by
  constructor
  · intro h
    choose! f hf honly using h
    exact ⟨f, hshape, fun hargs => (hf _ hargs).1, fun hargs hv =>
      ⟨fun htrue => honly _ hargs _ ⟨hv, htrue⟩, fun heq => heq ▸ (hf _ hargs).2⟩⟩
  · rintro ⟨f, hf⟩ args hargs
    refine ⟨f args, ⟨hf.value_lt hargs, (hf.holds_iff hargs (hf.value_lt hargs)).mpr rfl⟩, ?_⟩
    rintro v ⟨hv, htrue⟩
    exact (hf.holds_iff hargs hv).mp htrue

/-- The graphs that pass the check are those of functions. -/
theorem isFunction_iff_graphOf (hshape : t.shape = n :: rest) (hrank : rest.length < 26)
    {b : Bool} (h : (isFunction truthValues t).value = .ok b) :
    b = true ↔ ∃ f, GraphOf t n rest f :=
  (isFunction_iff hshape hrank h).trans (isGraph_iff hshape)

theorem reduce_graph_returns (hlabels : (c :: labels).Nodup) (hshape : t.shape = n :: rest)
    (hlen : rest.length = labels.length) (hread : t.Readable)
    (hjoint : Shape.Fillable (rest ++ [n]) Bool) (hblock : Shape.Blockable [n] Bool)
    (houter : Shape.Fillable rest Bool) :
    ∃ r, (truthValues.reduce .one (String.ofList labels) .id
      [graphOperand t c labels]).value = .ok r := by
  have hlen' : (n :: rest).length = (c :: labels).length := by simp [hlen]
  obtain ⟨extent, hextent⟩ := exists_assignment hlabels hlen'
  have hfits : Join.Fits (String.ofList labels) [graphOperand t c labels] extent := by
    refine ⟨List.cons_ne_nil _ _, ?_, ?_, fun d hd => ⟨_, List.mem_singleton_self _, ?_⟩⟩
    · intro operand hoperand
      rw [List.mem_singleton.mp hoperand, letters_graphOperand, hextent]
      exact hshape
    · rw [String.toList_ofList]
      exact (List.nodup_cons.mp hlabels).2
    · rw [String.toList_ofList] at hd
      rw [letters_graphOperand]
      exact List.mem_cons_of_mem _ hd
  rw [List.map_cons, List.cons.injEq] at hextent
  refine reduce_truths_returns hfits ?_ ?_ ?_ ?_ rfl
  · intro operand hoperand
    rw [List.mem_singleton.mp hoperand]
    exact hread
  · rwa [jointLabels_graph hlabels, List.map_append, hextent.2, List.map_singleton, hextent.1]
  · rwa [foldedLabels_graph hlabels, List.map_singleton, hextent.1]
  · rwa [String.toList_ofList, hextent.2]

theorem isFunction_returns (hshape : t.shape = n :: rest) (hrank : rest.length < 26)
    (hread : t.Readable) (hjoint : Shape.Fillable (rest ++ [n]) Bool)
    (hblock : Shape.Blockable [n] Bool) (houter : Shape.Fillable rest Bool)
    (hwhole : rest.Blockable Bool) :
    ∃ b, (isFunction truthValues t).value = .ok b := by
  have hlabels := nodup_graphLetters rest.length
  obtain ⟨r, hr⟩ := reduce_graph_returns hlabels hshape
    (length_argumentLetters hrank).symm hread hjoint hblock houter
  have hbounds := Join.inBounds_of_reduce (Run.value_eq_ok.mp hr)
  have hreduce := Run.value_eq_ok.mp hr
  have hshaper := (reduce_graph_iff hlabels hshape hr).1
  have hrankr : rest.length = r.rank := by rw [Tensor.rank, hshaper]
  obtain ⟨all, hfold⟩ := foldWhole_returns hbounds (by decide) (hshaper ▸ hwhole) .all
  obtain ⟨b, hb, -⟩ := foldAll_ok hbounds hfold
  refine ⟨b, Run.value_eq_ok.mpr ?_⟩
  rw [isFunction_eq hshape hrank, hrankr]
  rw [hrankr] at hreduce
  exact Run.bind_eq_ok.mpr ⟨r, (), hreduce, Run.bind_eq_ok.mpr
    ⟨all, (), Run.value_eq_ok.mp hfold, Run.lift_eq_ok.mpr ⟨hb, rfl⟩⟩⟩

end TensorLogic.Relation
