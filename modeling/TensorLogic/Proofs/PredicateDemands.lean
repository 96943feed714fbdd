import Mathlib.Data.List.InsertIdx
import TensorLogic.Formula
import TensorLogic.Proofs.Demands
import TensorLogic.Proofs.Functions

/-!
# What each predicate asks for

Behind its shape checks a predicate is a sequence of contractions, and each is settled by
its labels: which of them are left, which are folded, and in what order. For most
predicates the labels are fixed, and a look at them gives the buffers (`reduce_demands`).
Three predicates make theirs from the number of axes: they contract along one axis after
the other (`along`), and the essential relations put the results together once more
(`contracts_shadows`). Preservation has eight sets of labels.

The result is compared with another tensor of its shape, in a buffer that grows, and folded
to a truth value, which takes a block of all its cells (`compared_demands`).
-/

namespace TensorLogic

open Tensor Join

variable {t u : Tensor Bool} {shape : Shape} {n m : Nat} {requests : List Request}

/-! ## How a predicate ends -/

theorem toScalar_returns (h : t.Filled []) : ∃ b, t.toScalar = .ok b := by
  have hindex : [] ∈ t.shape.indices := by
    rw [h.shape_eq]
    exact List.mem_singleton_self _
  obtain ⟨b, hb⟩ := h.inBounds.get_ok hindex
  exact ⟨b, (if_pos h.rank_eq).trans hb⟩

theorem truth_returns (h : t.Filled []) :
    ∃ b, (liftM t.toScalar : Run Unit Bool).value = .ok b := by
  obtain ⟨b, hb⟩ := toScalar_returns h
  exact ⟨b, (Run.value_lift _).trans hb⟩

theorem foldAll_demands (h : t.Filled shape) {axes : Nat} (haxes : axes = shape.length) :
    Demands (Filled []) (truthValues.fold .all axes t).value (folding [] shape) := by
  have hfold := fold_demands h axes (Nat.le_of_eq haxes) (aggregate_returns .all)
  simp only [Run.lift_value, haxes, Nat.sub_self, List.take_zero, List.drop_zero] at hfold
  rw [haxes]
  exact hfold

namespace Demands

variable {α β : Type} {Q : α → Prop} {x : Run Unit α} {k : α → Run Unit β}

/-- The end of most predicates, which asks for nothing further. -/
theorem finish (hx : Demands Q x.value requests) (hk : ∀ a, Q a → ∃ b, (k a).value = .ok b) :
    Demands (fun _ => True) (x >>= k).value requests :=
  hx.run_bind_ok fun a ha => (hk a ha).imp fun _ hb => ⟨hb, trivial⟩

end Demands

theorem foldedAll_demands (h : t.Filled shape) {axes : Nat} (haxes : axes = shape.length) :
    Demands (fun _ => True) (do
      let all ← truthValues.fold .all axes t
      all.toScalar : Run Unit Bool).value (folding [] shape) :=
  (foldAll_demands h haxes).finish fun _ hall => truth_returns hall

/-- What a comparison of two tensors asks for: the cells, and what it takes to fold them. -/
def comparison (shape : Shape) : List Request :=
  .growing shape :: folding [] shape

/-- Two tensors of one shape, compared cell by cell. -/
theorem compared_demands (op : Connective) (hop : op.accepts 2) (ht : t.Filled shape)
    (hu : u.Filled shape) {axes : Nat} (haxes : axes = shape.length) :
    Demands (fun _ => True) (do
      let compared ← truthValues.map2 op t u
      let all ← truthValues.fold .all axes compared
      all.toScalar : Run Unit Bool).value (comparison shape) := by
  have hcompared := map2_demands ht hu (f := fun x y => (truthValues.connect op [x, y]).value)
    fun x y => connect_returns hop
  simp only [Run.lift_value] at hcompared
  exact Demands.run_bind hcompared fun compared hfilled => foldedAll_demands hfilled haxes

namespace Relation

/-! ## Cubes -/

theorem requireExtent_ok {subject : Subject} {rank : Nat}
    (h : t.shape = List.replicate rank n) : requireExtent subject t rank n = .ok () :=
  if_pos h

theorem requireExtent_rank {subject : Subject} {rank : Nat}
    (h : t.Filled (List.replicate rank n)) : requireExtent subject t t.rank n = .ok () := by
  refine requireExtent_ok ?_
  rw [h.rank_eq, List.length_replicate, h.shape_eq]

theorem requireCube_ok {subject : Subject} {rank : Nat}
    (h : t.shape = n :: List.replicate rank n) : requireCube subject t (rank + 1) = .ok () := by
  rw [requireCube, h]
  exact requireExtent_ok h

theorem isReflexive_demands (h : t.Filled [n, n]) :
    Demands (fun _ => True) (isReflexive truthValues t).value (contraction [] [n]) := by
  refine Demands.checked (requireCube_ok h.shape_eq) ?_
  exact (reduce_demands (fun _ => n) ["xx"] ['x'] (by decide) (.cons h .nil) rfl).finish
    fun all hall => truth_returns hall

theorem isSymmetric_demands (h : t.Filled [n, n]) :
    Demands (fun _ => True) (isSymmetric truthValues t).value (contraction [] [n, n]) := by
  refine Demands.checked (requireCube_ok h.shape_eq) ?_
  exact (reduce_demands (fun _ => n) ["xy", "yx"] ['x', 'y'] (by decide)
    (.cons h (.cons h .nil)) rfl).finish fun all hall => truth_returns hall

theorem isTransitive_demands (h : t.Filled [n, n]) :
    Demands (fun _ => True) (isTransitive truthValues t).value
      (contraction [n, n] [n] ++ comparison [n, n]) := by
  refine Demands.checked (requireCube_ok h.shape_eq) ?_
  exact (reduce_demands (fun _ => n) ["xy", "yz"] ['y'] (by decide)
    (.cons h (.cons h .nil)) rfl).run_bind
      fun composed hcomposed => compared_demands .leq rfl hcomposed h rfl

theorem isEquivalence_demands (h : t.Filled [n, n]) :
    Demands (fun _ => True) (isEquivalence truthValues t).value
      (contraction [] [n] ++ (contraction [] [n, n] ++
        (contraction [n, n] [n] ++ comparison [n, n]))) := by
  refine (isReflexive_demands h).run_bind fun reflexive _ => ?_
  refine (isSymmetric_demands h).run_bind fun symmetric _ => ?_
  refine (isTransitive_demands h).finish fun transitive _ => ?_
  exact ⟨_, rfl⟩

theorem holdAlong_demands (h : t.Filled [n, n, n, n]) {labellings : List String}
    (hall : ∀ labels ∈ labellings, labels.toList.length = 4 ∧
      (Contracts "" [labels] ['x', 'y'] ∨ Contracts "" [labels] ['y', 'x'])) :
    Demands (fun _ => True) (holdAlong truthValues t labellings).value
      (labellings.flatMap fun _ => contraction [] [n, n]) := by
  induction labellings with
  | nil => exact Demands.of_ok rfl trivial
  | cons labels rest ih =>
      obtain ⟨⟨hlength, hlabels⟩, hrest⟩ := List.forall_mem_cons.mp hall
      have hfilled : t.Filled (labels.toList.map fun _ => n) := by
        rw [List.map_const', hlength]
        exact h
      -- the letters are folded in the order they come in, but all extents are one
      have hreduce : Demands (Filled []) (truthValues.reduce .all "" .id [t.named labels]).value
          (contraction [] [n, n]) := by
        rcases hlabels with hlabels | hlabels
        · exact reduce_demands (fun _ => n) _ _ hlabels (.cons hfilled .nil) rfl
        · exact reduce_demands (fun _ => n) _ _ hlabels (.cons hfilled .nil) rfl
      refine hreduce.run_bind fun all hall => ?_
      obtain ⟨b, hb⟩ := toScalar_returns hall
      refine Demands.checked hb ?_
      exact (ih hrest).finish fun others _ => ⟨_, rfl⟩

theorem isMajority_demands (h : t.Filled [n, n, n, n]) :
    Demands (fun _ => True) (isMajority truthValues t).value
      (List.replicate 3 (contraction [] [n, n])).flatten := by
  refine Demands.checked (requireCube_ok h.shape_eq) ?_
  exact (holdAlong_demands h (by decide)).finish fun parts _ => ⟨_, rfl⟩

theorem isMaltsev_demands (h : t.Filled [n, n, n, n]) :
    Demands (fun _ => True) (isMaltsev truthValues t).value
      (List.replicate 2 (contraction [] [n, n])).flatten := by
  refine Demands.checked (requireCube_ok h.shape_eq) ?_
  exact (holdAlong_demands h (by decide)).finish fun parts _ => ⟨_, rfl⟩

/-! ## One axis after the other -/

/-- The buffers of a contraction that folds one axis away. -/
def along (shape : Shape) (axis : Nat) : List Request :=
  contraction (shape.eraseIdx axis) [shape.getD axis 0]

section Along

variable {labels : List Char} {extent : Char → Nat} {axis : Nat}

theorem mem_eraseIdx_of_nodup (hnodup : labels.Nodup) (haxis : axis < labels.length) {c : Char} :
    c ∈ labels.eraseIdx axis ↔ c ∈ labels ∧ c ≠ labels[axis] := by
  rw [List.mem_eraseIdx_iff_getElem]
  constructor
  · rintro ⟨i, hi, hne, rfl⟩
    exact ⟨List.getElem_mem hi, fun h => hne (hnodup.getElem_inj_iff.mp h)⟩
  · rintro ⟨hmem, hne⟩
    obtain ⟨i, hi, rfl⟩ := List.getElem_of_mem hmem
    exact ⟨i, hi, fun h => hne (hnodup.getElem_inj_iff.mpr h), rfl⟩

theorem contracts_without (hnodup : labels.Nodup) (haxis : axis < labels.length) :
    Contracts (without (String.ofList labels) axis) [String.ofList labels] [labels[axis]] := by
  have hmem := @mem_eraseIdx_of_nodup labels axis hnodup haxis
  rw [without, Contracts, List.flatMap_singleton, String.toList_ofList, String.toList_ofList]
  refine ⟨by simp, hnodup.eraseIdx axis, fun c hc => (hmem.mp hc).1, ?_⟩
  rw [eq_singleton_iff ((nodup_eraseDups _).filter _)]
  intro c
  rw [List.mem_filter, List.mem_eraseDups, Bool.not_eq_true', ← Bool.not_eq_true,
    List.contains_iff_mem, hmem]
  constructor
  · rintro ⟨hc, hnot⟩
    by_contra hne
    exact hnot ⟨hc, hne⟩
  · rintro rfl
    exact ⟨List.getElem_mem haxis, fun h => h.2 rfl⟩

/-- What it takes to decide whether all that is left of the other axes holds. -/
def decided (shape : Shape) (axis : Nat) : List Request :=
  along shape axis ++ folding [] (shape.eraseIdx axis)

/-- Contracting one axis away, by any aggregator. -/
theorem along_demands (hnodup : labels.Nodup) (h : t.Filled (labels.map extent))
    (haxis : axis < labels.length) {agg : Aggregate} :
    Demands (Filled ((without (String.ofList labels) axis).toList.map extent))
      (truthValues.reduce agg (without (String.ofList labels) axis) .id
        [t.named (String.ofList labels)]).value
      (along (labels.map extent) axis) := by
  have hfilled : t.Filled ((String.ofList labels).toList.map extent) := by
    rwa [String.toList_ofList]
  have hbuffers : along (labels.map extent) axis =
      contraction ((without (String.ofList labels) axis).toList.map extent)
        ([labels[axis]].map extent) := by
    rw [along, without, String.toList_ofList, String.toList_ofList, List.eraseIdx_map,
      List.getD_eq_getElem _ _ (by simpa using haxis), List.getElem_map]
    rfl
  rw [hbuffers]
  exact reduce_demands extent _ _ (contracts_without hnodup haxis) (.cons hfilled .nil) rfl

theorem map_without :
    (without (String.ofList labels) axis).toList.map extent =
      (labels.map extent).eraseIdx axis := by
  rw [without, String.toList_ofList, String.toList_ofList, List.eraseIdx_map]

theorem length_eraseIdx (haxis : axis < labels.length) :
    ((labels.map extent).eraseIdx axis).length = labels.length - 1 := by
  rw [List.length_eraseIdx_of_lt (by simpa using haxis), List.length_map]

theorem shadows_demands (hnodup : labels.Nodup) (h : t.Filled (labels.map extent))
    {axes : List Nat} (haxes : ∀ axis ∈ axes, axis < labels.length) :
    Demands (Carry extent (axes.map (without (String.ofList labels))))
      (shadows truthValues t (String.ofList labels) axes).value
      (axes.flatMap (along (labels.map extent))) := by
  induction axes with
  | nil => exact Demands.of_ok rfl .nil
  | cons axis rest ih =>
      obtain ⟨haxis, hrest⟩ := List.forall_mem_cons.mp haxes
      refine (along_demands hnodup h haxis).run_bind fun shadow hshadow => ?_
      exact (ih hrest).run_bind_ok fun others hothers => ⟨_, rfl, .cons hshadow hothers⟩

theorem ignoredArguments_demands (hnodup : labels.Nodup) (h : t.Filled (labels.map extent))
    {axes : List Nat} (haxes : ∀ axis ∈ axes, axis < labels.length) :
    Demands (fun _ => True)
      (ignoredArguments truthValues t (String.ofList labels) axes).value
      (axes.flatMap (decided (labels.map extent))) := by
  induction axes with
  | nil => exact Demands.of_ok rfl trivial
  | cons axis rest ih =>
      obtain ⟨haxis, hrest⟩ := List.forall_mem_cons.mp haxes
      rw [List.flatMap_cons, decided, List.append_assoc]
      refine (along_demands hnodup h haxis).run_bind fun constant hconstant => ?_
      rw [map_without] at hconstant
      have haxes : (String.ofList labels).length - 1 =
          ((labels.map extent).eraseIdx axis).length := by
        rw [length_eraseIdx haxis, String.length_ofList]
      refine (foldAll_demands hconstant haxes).run_bind fun all hall => ?_
      obtain ⟨b, hb⟩ := toScalar_returns hall
      refine Demands.checked hb ?_
      exact (ih hrest).finish fun others _ => ⟨_, rfl⟩

/-- The labels in the last contraction of the essential relations: those of the shadows,
and those of the complement. -/
def shadowLabels (labels : List Char) : List String :=
  (List.range labels.length).map (without (String.ofList labels)) ++ [String.ofList labels]

/-- The first shadow has all labels but the first, and a later operand brings that one in. -/
theorem contracts_shadows {c : Char} (hnodup : (c :: labels).Nodup) :
    Contracts "" (shadowLabels (c :: labels)) (labels ++ [c]) := by
  obtain ⟨hc, hrest⟩ := List.nodup_cons.mp hnodup
  have hflat : (shadowLabels (c :: labels)).flatMap String.toList = labels ++
      ((List.range labels.length).flatMap (fun i => (c :: labels).eraseIdx (i + 1)) ++
        c :: labels) := by
    simp [shadowLabels, List.range_succ_eq_map, without, List.flatMap_map, List.flatMap_append]
  refine ⟨by simp [shadowLabels], by simp, by simp, ?_⟩
  have hkeep : ∀ l : List Char, l.filter (fun d => !("".toList.contains d)) = l := fun l =>
    List.filter_eq_self.mpr fun _ _ => rfl
  rw [hflat, hkeep, List.eraseDups_append, eraseDups_of_nodup hrest]
  congr 1
  rw [eq_singleton_iff (nodup_eraseDups _)]
  intro d
  simp only [List.mem_eraseDups, List.removeAll, List.mem_filter, List.mem_append,
    List.mem_flatMap, Bool.not_eq_true', List.elem_eq_mem, decide_eq_false_iff_not]
  constructor
  · rintro ⟨hmem, hnot⟩
    have hcons : d ∈ c :: labels := by
      rcases hmem with ⟨i, -, hd⟩ | hd
      · exact List.mem_of_mem_eraseIdx hd
      · exact hd
    exact (List.mem_cons.mp hcons).resolve_right hnot
  · rintro rfl
    exact ⟨.inr List.mem_cons_self, hc⟩

end Along

/-- The letters of the axes of a shape, with its extents. -/
theorem exists_lettering (h : shape.length ≤ 26) : ∃ (labels : List Char) (extent : Char → Nat),
    labels = letters.take shape.length ∧ labels.Nodup ∧ labels.map extent = shape := by
  have hnodup : letters.Nodup := by decide
  have htake := (List.take_sublist shape.length letters).nodup hnodup
  have hlength : shape.length = (letters.take shape.length).length := by
    rw [List.length_take]
    exact (Nat.min_eq_left h).symm
  obtain ⟨extent, hextent⟩ := exists_assignment htake hlength
  exact ⟨_, extent, rfl, htake, hextent⟩

theorem axisLabels_ok {subject : Subject} {least : Nat} {labels : List Char}
    (h : t.Filled shape) (hleast : least ≤ shape.length) (hmost : shape.length ≤ 26)
    (hlabels : labels = letters.take shape.length) :
    axisLabels subject t.rank least = .ok (String.ofList labels) := by
  rw [hlabels, h.rank_eq]
  exact if_pos ⟨hleast, hmost⟩

theorem isFunction_demands (h : t.Filled shape) (hleast : 1 ≤ shape.length)
    (hmost : shape.length ≤ 26) :
    Demands (fun _ => True) (isFunction truthValues t).value (decided shape 0) := by
  obtain ⟨labels, extent, hlabels, hnodup, rfl⟩ := exists_lettering hmost
  have haxis : 0 < labels.length := by
    rw [List.length_map] at hleast
    omega
  refine Demands.checked (axisLabels_ok h hleast hmost hlabels) ?_
  refine (along_demands hnodup h haxis).run_bind fun unique hunique => ?_
  rw [map_without] at hunique
  refine foldedAll_demands hunique ?_
  rw [length_eraseIdx haxis, h.rank_eq, List.length_map]

theorem isEssentialOperation_demands (h : t.Filled shape) (hleast : 2 ≤ shape.length)
    (hmost : shape.length ≤ 26) :
    Demands (fun _ => True) (isEssentialOperation truthValues t).value
      (((List.range shape.length).drop 1).flatMap (decided shape)) := by
  obtain ⟨labels, extent, hlabels, hnodup, rfl⟩ := exists_lettering hmost
  refine Demands.checked (axisLabels_ok h hleast hmost hlabels) ?_
  rw [String.length_ofList, List.length_map]
  refine (ignoredArguments_demands hnodup h fun axis haxis => ?_).finish fun ignored _ =>
    ⟨_, rfl⟩
  exact List.mem_range.mp (List.mem_of_mem_drop haxis)

theorem isEssential_demands (h : t.Filled shape) (hleast : 2 ≤ shape.length)
    (hmost : shape.length ≤ 26) :
    Demands (fun _ => True) (isEssential truthValues t).value
      ((List.range shape.length).flatMap (along shape) ++
        (.growing shape :: contraction [] (shape.tail ++ [shape.headD 0]))) := by
  obtain ⟨labels, extent, hlabels, hnodup, rfl⟩ := exists_lettering hmost
  have hcomplement := map_demands h (f := fun x => (truthValues.connect .not [x]).value)
    fun x => connect_returns rfl
  simp only [Run.lift_value] at hcomplement
  refine Demands.checked (axisLabels_ok h hleast hmost hlabels) ?_
  rw [String.length_ofList, List.length_map]
  refine (shadows_demands hnodup h fun axis haxis => List.mem_range.mp haxis).run_bind
    fun parts hparts => ?_
  refine hcomplement.run_bind fun outside hfilled => ?_
  cases labels with
  | nil => exact absurd hleast (Nat.not_succ_le_zero 1)
  | cons c labels =>
      have hlast : outside.Filled ((String.ofList (c :: labels)).toList.map extent) := by
        rwa [String.toList_ofList]
      have hcarry : Carry extent (shadowLabels (c :: labels))
          (parts ++ [outside.named (String.ofList (c :: labels))]) :=
        List.rel_append hparts (.cons ⟨rfl, hlast⟩ .nil)
      have hop : Connective.and.accepts (shadowLabels (c :: labels)).length := by
        simp [Connective.accepts, shadowLabels]
      have hjoint : ((c :: labels).map extent).tail ++ [((c :: labels).map extent).headD 0] =
          (labels ++ [c]).map extent := by
        rw [List.map_append]
        rfl
      rw [hjoint]
      exact (reduce_demands extent _ _ (contracts_shadows hnodup) hcarry hop).finish
        fun found hfound => truth_returns hfound

/-! ## Monoids -/

/-- The extents of the letters that stand for elements and for maps: `i` to `k` and `p` to
`s` run over the maps of a monoid, all others over the elements. -/
def letterExtent (n m : Nat) : Char → Nat
  | 'i' | 'j' | 'k' | 'p' | 'q' | 'r' | 's' => m
  | _ => n

theorem monoidSize_ok (h : t.shape = [n, n, m]) : monoidSize t = .ok n := by
  rw [monoidSize, h]
  exact if_pos rfl

theorem isMonoid_demands (h : t.Filled [n, n, m]) :
    Demands (fun _ => True) (isMonoid truthValues t).value
      (contraction [n, n, m, m] [n] ++ (contraction [m, m, m] [n, n] ++ decided [m, m, m] 0)) := by
  refine Demands.checked (monoidSize_ok h.shape_eq) ?_
  refine (reduce_demands (letterExtent n m) ["xyi", "yzj"] ['y'] (by decide)
    (.cons h (.cons h .nil)) rfl).run_bind fun composed hcomposed => ?_
  refine (reduce_demands (letterExtent n m) ["xzij", "xzk"] ['x', 'z'] (by decide)
    (.cons hcomposed (.cons h .nil)) rfl).run_bind fun equal hequal => ?_
  exact isFunction_demands hequal (by simp) (by simp)

/-- The buffers for the image of a relation of the given arity. -/
def imageBuffers (n m : Nat) : Nat → List Request
  | 1 => contraction [n] [n, m]
  | 2 => contraction [n, n, m] [n] ++ contraction [n, n] [n, m]
  | 3 => contraction [n, n, n, m] [n] ++
      (contraction [n, n, n, m] [n] ++ contraction [n, n, n] [n, m])
  | _ => []

theorem image_demands {rank : Nat} (h : t.Filled (List.replicate rank n))
    (hu : u.Filled [n, n, m]) (hleast : 1 ≤ rank) (hmost : rank ≤ 3) :
    Demands (Filled (List.replicate rank n)) (image truthValues t u).value
      (imageBuffers n m rank) := by
  rw [image, h.rank_eq, List.length_replicate]
  match rank, hleast, hmost with
  | 1, _, _ =>
      exact reduce_demands (letterExtent n m) ["x", "yxp"] ['x', 'p'] (by decide)
        (.cons h (.cons hu .nil)) rfl
  | 2, _, _ =>
      refine (reduce_demands (letterExtent n m) ["xy", "uxp"] ['x'] (by decide)
        (.cons h (.cons hu .nil)) rfl).run_bind fun first hfirst => ?_
      exact reduce_demands (letterExtent n m) ["uyp", "vyp"] ['y', 'p'] (by decide)
        (.cons hfirst (.cons hu .nil)) rfl
  | 3, _, _ =>
      refine (reduce_demands (letterExtent n m) ["xyz", "uxp"] ['x'] (by decide)
        (.cons h (.cons hu .nil)) rfl).run_bind fun first hfirst => ?_
      refine (reduce_demands (letterExtent n m) ["uyzp", "vyp"] ['y'] (by decide)
        (.cons hfirst (.cons hu .nil)) rfl).run_bind fun second hsecond => ?_
      exact reduce_demands (letterExtent n m) ["uvzp", "wzp"] ['z', 'p'] (by decide)
        (.cons hsecond (.cons hu .nil)) rfl

theorem isCompatible_demands {rank : Nat} (h : t.Filled (List.replicate rank n))
    (hu : u.Filled [n, n, m]) (hleast : 1 ≤ rank) (hmost : rank ≤ 3) :
    Demands (fun _ => True) (isCompatible truthValues t u).value
      (imageBuffers n m rank ++ comparison (List.replicate rank n)) := by
  refine Demands.checked (monoidSize_ok hu.shape_eq) ?_
  refine Demands.checked (requireExtent_rank h) ?_
  refine (image_demands h hu hleast hmost).run_bind fun reached hreached => ?_
  exact compared_demands .leq rfl hreached h h.rank_eq

/-- The buffers for feeding an operation of the given rank with maps. -/
def compositeBuffers (n m : Nat) : Nat → List Request
  | 3 => contraction [n, n, n, m] [n] ++
      (contraction [n, n, m, m] [n] ++ contraction [m, m, m] [n, n])
  | 4 => contraction [n, n, m, n, n] [n] ++ (contraction [n, n, m, m, n] [n] ++
      (contraction [n, n, m, m, m] [n] ++ contraction [m, m, m, m] [n, n]))
  | _ => []

theorem composite_demands {rank : Nat} (h : t.Filled (List.replicate rank n))
    (hu : u.Filled [n, n, m]) (hrank : rank = 3 ∨ rank = 4) :
    Demands (Filled (List.replicate rank m)) (composite truthValues t u).value
      (compositeBuffers n m rank) := by
  rw [composite, h.rank_eq, List.length_replicate]
  rcases hrank with rfl | rfl
  · refine (reduce_demands (letterExtent n m) ["xyz", "ztp"] ['z'] (by decide)
      (.cons h (.cons hu .nil)) rfl).run_bind fun first hfirst => ?_
    refine (reduce_demands (letterExtent n m) ["xytp", "ytq"] ['y'] (by decide)
      (.cons hfirst (.cons hu .nil)) rfl).run_bind fun second hsecond => ?_
    exact reduce_demands (letterExtent n m) ["xtpq", "xtr"] ['x', 't'] (by decide)
      (.cons hsecond (.cons hu .nil)) rfl
  · refine (reduce_demands (letterExtent n m) ["abcd", "btp"] ['b'] (by decide)
      (.cons h (.cons hu .nil)) rfl).run_bind fun first hfirst => ?_
    refine (reduce_demands (letterExtent n m) ["atpcd", "ctq"] ['c'] (by decide)
      (.cons hfirst (.cons hu .nil)) rfl).run_bind fun second hsecond => ?_
    refine (reduce_demands (letterExtent n m) ["atpqd", "dtr"] ['d'] (by decide)
      (.cons hsecond (.cons hu .nil)) rfl).run_bind fun third hthird => ?_
    exact reduce_demands (letterExtent n m) ["atpqr", "ats"] ['a', 't'] (by decide)
      (.cons hthird (.cons hu .nil)) rfl

/-- The buffers for feeding it with maps and counting the maps that come out. -/
def stabilizerBuffers (n m rank : Nat) : List Request :=
  if rank = 3 ∨ rank = 4 then
    compositeBuffers n m rank ++ (folding (List.replicate (rank - 1) m) [m] ++
      folding [] (List.replicate (rank - 1) m))
  else []

theorem isStabilizer_demands {rank : Nat} (h : t.Filled (List.replicate rank n))
    (hu : u.Filled [n, n, m]) (hrank : rank = 3 ∨ rank = 4) :
    Demands (fun _ => True) (isStabilizer truthValues t u).value (stabilizerBuffers n m rank) := by
  rw [stabilizerBuffers, if_pos hrank]
  refine Demands.checked (monoidSize_ok hu.shape_eq) ?_
  refine Demands.checked (requireExtent_rank h) ?_
  refine (composite_demands h hu hrank).run_bind fun matching hmatching => ?_
  have hfold := fold_demands hmatching 1 (by rw [List.length_replicate]; omega)
    (aggregate_returns .one)
  have hlast : rank - (rank - 1) = 1 := by omega
  simp only [Run.lift_value, List.length_replicate, List.take_replicate, List.drop_replicate,
    Nat.min_eq_left (Nat.sub_le rank 1), hlast, List.replicate_one] at hfold
  exact hfold.run_bind fun member hmember => foldedAll_demands hmember hmember.rank_eq

/-! ## Preservation -/

/-- Where the labels of `isPreserved` lead: the coordinates of both tuples are folded and
those of the value are left. -/
theorem preservationLabels_contracts : ∀ arity ∈ List.range' 1 8,
    let (left, right, value, graphs) := preservationLabels arity
    Contracts value ([left, right] ++ graphs) (left.toList ++ right.toList) ∧
      left.toList.length = arity ∧ right.toList.length = arity ∧
      value.toList.length = arity ∧ ∀ labels ∈ graphs, labels.toList.length = 3 := by
  decide +kernel

theorem carry_map {extent : Char → Nat} {labels : List String}
    (h : ∀ names ∈ labels, t.Filled (names.toList.map extent)) :
    Carry extent labels (labels.map t.named) := by
  induction labels with
  | nil => exact .nil
  | cons names labels ih =>
      obtain ⟨hnames, hlabels⟩ := List.forall_mem_cons.mp h
      exact .cons hnames (ih hlabels)

theorem isPreserved_demands {arity : Nat} (h : t.Filled (List.replicate arity n))
    (hu : u.Filled [n, n, n]) (hleast : 1 ≤ arity) (hmost : arity ≤ 8) :
    Demands (fun _ => True) (isPreserved truthValues t u).value
      (contraction (List.replicate arity n) (List.replicate (2 * arity) n) ++
        comparison (List.replicate arity n)) := by
  have hrank : t.rank = arity := h.rank_eq.trans List.length_replicate
  have harity : ¬(t.rank = 0 ∨ t.rank > 8) := by omega
  have hhead : u.shape.headD 0 = n := by
    rw [hu.shape_eq]
    rfl
  refine Demands.checked (requireCube_ok hu.shape_eq) ?_
  dsimp only
  rw [if_neg harity, hhead]
  refine Demands.checked (requireExtent_rank h) ?_
  have hlabels := preservationLabels_contracts arity (List.mem_range'_1.mpr ⟨hleast, by omega⟩)
  rw [hrank]
  generalize preservationLabels arity = labels at hlabels ⊢
  obtain ⟨left, right, value, graphs⟩ := labels
  obtain ⟨hcontracts, hleft, hright, hvalue, hgraphs⟩ := hlabels
  have htuple : ∀ labels : String, labels.toList.length = arity →
      labels.toList.map (fun _ => n) = List.replicate arity n := by
    intro labels hlength
    rw [List.map_const', hlength]
  have hcarry : Carry (fun _ => n) ([left, right] ++ graphs)
      ([t.named left, t.named right] ++ graphs.map u.named) := by
    refine .cons (htuple left hleft ▸ h) (.cons (htuple right hright ▸ h) (carry_map ?_))
    intro names hnames
    rw [List.map_const', hgraphs names hnames]
    exact hu
  have hfolded : (left.toList ++ right.toList).map (fun _ => n) =
      List.replicate (2 * arity) n := by
    rw [List.map_const', List.length_append, hleft, hright, Nat.two_mul]
  rw [← hfolded, ← htuple value hvalue]
  have hop : Connective.and.accepts ([left, right] ++ graphs).length := by
    simp [Connective.accepts]
  refine (reduce_demands (fun _ => n) _ _ hcontracts hcarry hop).run_bind
    fun reached hreached => ?_
  rw [htuple value hvalue] at hreached ⊢
  exact compared_demands .leq rfl hreached h List.length_replicate.symm

/-! ## Galois connections -/

/-- The extents of the two sides of a Galois connection. -/
def sideExtent (n m : Nat) : Char → Nat
  | 'x' => n
  | _ => m

theorem isClosedSubset_demands (ht : t.shape = [n]) (htb : t.InBounds) (hu : u.shape = [n, m])
    (hub : u.InBounds) :
    Demands (fun _ => True) (isClosedSubset truthValues t u).value
      (contraction [m] [n] ++ (contraction [n] [m] ++ comparison [n])) := by
  have hmatrix : ¬ u.rank ≠ 2 := by
    rw [Tensor.rank, hu]
    simp
  have hsubset : t.shape = List.replicate 1 (u.shape.headD 0) := by
    rw [ht, hu]
    rfl
  rw [isClosedSubset, if_neg hmatrix]
  refine Demands.checked (requireExtent_ok hsubset) ?_
  refine (reduce_bounded_demands (sideExtent n m) ["x", "xy"] ['x'] (by decide)
    (.cons ⟨rfl, ht, htb⟩ (.cons ⟨rfl, hu, hub⟩ .nil)) rfl).run_bind fun columns hcolumns => ?_
  refine (reduce_bounded_demands (sideExtent n m) ["y", "xy"] ['y'] (by decide)
    (.cons ⟨rfl, hcolumns.shape_eq, hcolumns.inBounds⟩ (.cons ⟨rfl, hu, hub⟩ .nil))
    rfl).run_bind fun closure hclosure => ?_
  -- the subset has the shape of the closure, so it can be stored as well
  exact compared_demands .equ rfl ⟨ht, htb, hclosure.storable⟩ hclosure rfl

end Relation

end TensorLogic
