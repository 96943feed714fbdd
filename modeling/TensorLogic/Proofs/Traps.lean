import TensorLogic.Proofs.PredicateDemands

/-!
# When predicates trap

A predicate checks the shapes of its arguments and then asks for the buffers of its
contractions and comparisons. If a check fails, or the cells of a buffer cannot be counted,
the predicate is refused. If they can be counted and the buffer cannot be had all the same,
it traps: the strides of a shape that holds no cell may still leave the words, and a buffer
has less than `2 ^ 63` bytes.

`Property.requests` and `Pairing.requests` list what each predicate asks for, as functions
of the shapes alone. `predicates_trap_iff` says that a predicate traps exactly if it
overdraws its list. There is one exception, an operation without axes: the stabilizer check
subtracts one from the number of axes for the text of its refusal. The matrix of a Galois
connection is made from lists of views, which need memory as well, before the check for
its first entry is made.
-/

namespace TensorLogic

open Tensor TensorLogic.Relation

variable {t u : Tensor Bool} {shape : Shape}

/-! ## The requests of each predicate -/

/-- What is asked for if the shape has `rank` axes of extent `n`. -/
def sized (rank n : Nat) (shape : Shape) (asked : List Request) : List Request :=
  if shape = List.replicate rank n then asked else []

/-- What is asked for if all `rank` axes of the shape have one extent. -/
def cubed (rank : Nat) (shape : Shape) (asked : Nat → List Request) : List Request :=
  sized rank (shape.headD 0) shape (asked (shape.headD 0))

/-- What is asked for if the axes of the shape can be lettered. -/
def lettered (least : Nat) (shape : Shape) (asked : List Request) : List Request :=
  if least ≤ shape.length ∧ shape.length ≤ 26 then asked else []

/-- What is asked for if the shape is that of `m` maps on `n` elements. -/
def mapped (asked : Nat → Nat → List Request) : Shape → List Request
  | [n, n', m] => if n = n' then asked n m else []
  | _ => []

/-- What a property asks for, in this order; nothing if it refuses the shape. -/
def Property.requests (shape : Shape) : Property → List Request
  | .reflexive => cubed 2 shape fun n => contraction [] [n]
  | .symmetric => cubed 2 shape fun n => contraction [] [n, n]
  | .transitive => cubed 2 shape fun n => contraction [n, n] [n] ++ comparison [n, n]
  | .equivalence => cubed 2 shape fun n =>
      contraction [] [n] ++ (contraction [] [n, n] ++
        (contraction [n, n] [n] ++ comparison [n, n]))
  | .essential => lettered 2 shape ((List.range shape.length).flatMap (along shape) ++
      (.growing shape :: contraction [] (shape.tail ++ [shape.headD 0])))
  | .function => lettered 1 shape (decided shape 0)
  | .majority => cubed 4 shape fun n => (List.replicate 3 (contraction [] [n, n])).flatten
  | .maltsev => cubed 4 shape fun n => (List.replicate 2 (contraction [] [n, n])).flatten
  | .essentialOperation =>
      lettered 2 shape (((List.range shape.length).drop 1).flatMap (decided shape))
  | .monoid => mapped (fun n m => contraction [n, n, m, m] [n] ++
      (contraction [m, m, m] [n, n] ++ decided [m, m, m] 0)) shape

/-- What a predicate on two tensors asks for. -/
def Pairing.requests (left right : Shape) : Pairing → List Request
  | .compatible => mapped (fun n m => sized left.length n left
      (if 1 ≤ left.length ∧ left.length ≤ 3 then
        imageBuffers n m left.length ++ comparison (List.replicate left.length n)
      else [])) right
  | .stabilizer => mapped (fun n m => sized left.length n left
      (stabilizerBuffers n m left.length)) right
  | .preserved => cubed 3 right fun n =>
      if 1 ≤ left.length ∧ left.length ≤ 8 then
        sized left.length n left
          (contraction (List.replicate left.length n) (List.replicate (2 * left.length) n) ++
            comparison (List.replicate left.length n))
      else []
  | .closedSubset =>
      match right with
      | [n, m] => sized 1 n left
          (contraction [m] [n] ++ (contraction [n] [m] ++ comparison [n]))
      | _ => []

/-! ## Refused shapes -/

theorem refused_traps_iff {x : Except Fault Bool} (cause : Error)
    (h : x = .error (.refused cause)) : Traps x ↔ Overdraws [] :=
  iff_of_false (not_traps_refused cause h) not_overdraws_nil

section Checks

variable {x : Except Fault Bool} (subject : Subject) {rank n least : Nat}

/-- The predicate stops as its check of the extents does, or asks for these buffers. -/
theorem sized_traps_iff {asked : List Request} (h : t.Filled shape)
    (hrefused : ∀ fault, requireExtent subject t rank n = .error fault → x = .error fault)
    (hx : shape = List.replicate rank n → (Traps x ↔ Overdraws asked)) :
    Traps x ↔ Overdraws (sized rank n shape asked) := by
  rw [sized]
  split
  next hshape => exact hx hshape
  next hshape =>
      refine refused_traps_iff _ (hrefused _ (if_neg ?_))
      rwa [h.shape_eq]

theorem cubed_traps_iff {asked : Nat → List Request} (h : t.Filled shape)
    (hrefused : ∀ fault, requireCube subject t rank = .error fault → x = .error fault)
    (hx : ∀ n, shape = List.replicate rank n → (Traps x ↔ Overdraws (asked n))) :
    Traps x ↔ Overdraws (cubed rank shape asked) := by
  rw [requireCube, h.shape_eq] at hrefused
  exact sized_traps_iff subject h hrefused (hx _)

theorem lettered_traps_iff {asked : List Request} (h : t.Filled shape)
    (hrefused : ∀ fault, axisLabels subject t.rank least = .error fault → x = .error fault)
    (hx : least ≤ shape.length → shape.length ≤ 26 → (Traps x ↔ Overdraws asked)) :
    Traps x ↔ Overdraws (lettered least shape asked) := by
  rw [lettered]
  split
  next hrank => exact hx hrank.1 hrank.2
  next hrank =>
      refine refused_traps_iff _ (hrefused _ (if_neg ?_))
      rwa [h.rank_eq]

theorem mapped_traps_iff {asked : Nat → Nat → List Request} (h : t.Filled shape)
    (hrefused : ∀ fault, monoidSize t = .error fault → x = .error fault)
    (hx : ∀ n m, shape = [n, n, m] → (Traps x ↔ Overdraws (asked n m))) :
    Traps x ↔ Overdraws (mapped asked shape) := by
  have hsize := h.shape_eq
  unfold mapped
  split
  next n n' m =>
      split
      next heq =>
          subst heq
          exact hx n m rfl
      next hne =>
          refine refused_traps_iff _ (hrefused (.refused (.shapeMismatch .monoid [n, n, 0]
            [n, n', m])) ?_)
          rw [monoidSize, hsize]
          exact if_neg hne
  next hshape =>
      refine refused_traps_iff _ (hrefused (.refused (.shapeMismatch .monoid
        [shape.headD 0, shape.headD 0, 0] shape)) ?_)
      rw [monoidSize, hsize]
      split
      next n n' m => exact absurd rfl (hshape n n' m)
      next => rfl

end Checks

theorem holds_traps_iff (which : Property) (h : t.Filled shape) :
    Traps (Formula.holds truthValues which t).value ↔ Overdraws (which.requests shape) := by
  unfold Formula.holds Property.requests
  cases which with
  | reflexive =>
      refine cubed_traps_iff _ h (fun fault => Run.value_of_refused) ?_
      rintro n rfl
      exact (isReflexive_demands h).traps_iff
  | symmetric =>
      refine cubed_traps_iff _ h (fun fault => Run.value_of_refused) ?_
      rintro n rfl
      exact (isSymmetric_demands h).traps_iff
  | transitive =>
      refine cubed_traps_iff _ h (fun fault => Run.value_of_refused) ?_
      rintro n rfl
      exact (isTransitive_demands h).traps_iff
  | equivalence =>
      refine cubed_traps_iff .relation h (fun fault hfault => ?_) ?_
      · have hreflexive : (isReflexive truthValues t).value = .error fault :=
          Run.value_of_refused hfault
        show (isEquivalence truthValues t).value = .error fault
        rw [isEquivalence, Run.value_bind, hreflexive]
        rfl
      · rintro n rfl
        exact (isEquivalence_demands h).traps_iff
  | essential =>
      refine lettered_traps_iff _ h (fun fault => Run.value_of_refused) fun hleast hmost => ?_
      exact (isEssential_demands h hleast hmost).traps_iff
  | function =>
      refine lettered_traps_iff _ h (fun fault => Run.value_of_refused) fun hleast hmost => ?_
      exact (isFunction_demands h hleast hmost).traps_iff
  | majority =>
      refine cubed_traps_iff _ h (fun fault => Run.value_of_refused) ?_
      rintro n rfl
      exact (isMajority_demands h).traps_iff
  | maltsev =>
      refine cubed_traps_iff _ h (fun fault => Run.value_of_refused) ?_
      rintro n rfl
      exact (isMaltsev_demands h).traps_iff
  | essentialOperation =>
      refine lettered_traps_iff _ h (fun fault => Run.value_of_refused) fun hleast hmost => ?_
      exact (isEssentialOperation_demands h hleast hmost).traps_iff
  | monoid =>
      refine mapped_traps_iff h (fun fault => Run.value_of_refused) ?_
      rintro n m rfl
      exact (isMonoid_demands h).traps_iff

theorem image_refused (h : t.rank = 0 ∨ 4 ≤ t.rank) :
    image truthValues t u = refuse (.compatibilityArity t.rank) := by
  rw [image]
  generalize t.rank = rank at h ⊢
  obtain rfl | hrank := h
  · rfl
  · obtain ⟨rank, rfl⟩ := Nat.exists_eq_add_of_le' hrank
    rfl

theorem composite_refused (hzero : t.rank ≠ 0) (hrank : ¬(t.rank = 3 ∨ t.rank = 4)) :
    composite truthValues t u = refuse (.stabilizerArity (t.rank - 1)) := by
  rw [composite]
  generalize t.rank = rank at hzero hrank ⊢
  obtain rfl | rfl | hrank : rank = 1 ∨ rank = 2 ∨ 5 ≤ rank := by omega
  · rfl
  · rfl
  · obtain ⟨rank, rfl⟩ := Nat.exists_eq_add_of_le' hrank
    rfl

/-- The message about the arity is computed from the rank, and an operation without axes
has no arity. -/
theorem isStabilizer_scalar {n m : Nat} (ht : t.Filled (List.replicate 0 n))
    (hu : u.Filled [n, n, m]) :
    (isStabilizer truthValues t u).value = .error (.trapped .overflow) := by
  have hcomposite : composite truthValues t u = trap .overflow := by
    rw [composite, ht.rank_eq]
    rfl
  refine (Run.value_of_checked (monoidSize_ok hu.shape_eq)).trans ?_
  refine (Run.value_of_checked (requireExtent_rank ht)).trans ?_
  exact Run.value_of_failed hcomposite

section Pairs

variable {shape' : Shape} (ht : t.Filled shape) (hu : u.Filled shape')
include ht hu

theorem isCompatible_traps_iff : Traps (isCompatible truthValues t u).value ↔
    Overdraws (Pairing.compatible.requests shape shape') := by
  refine mapped_traps_iff hu (fun fault => Run.value_of_refused) ?_
  rintro n m rfl
  refine sized_traps_iff .relation ht (fun fault hfault => ?_) fun hshape => ?_
  · rw [← ht.rank_eq] at hfault
    refine (Run.value_of_checked (monoidSize_ok hu.shape_eq)).trans ?_
    exact Run.value_of_refused hfault
  · have hfilled : t.Filled (List.replicate shape.length n) := by rwa [← hshape]
    by_cases hrank : 1 ≤ shape.length ∧ shape.length ≤ 3
    · rw [if_pos hrank]
      exact (isCompatible_demands hfilled hu hrank.1 hrank.2).traps_iff
    · have harity : t.rank = 0 ∨ 4 ≤ t.rank := by
        rw [ht.rank_eq]
        omega
      rw [if_neg hrank]
      refine refused_traps_iff (.compatibilityArity t.rank) ?_
      refine (Run.value_of_checked (monoidSize_ok hu.shape_eq)).trans ?_
      refine (Run.value_of_checked (requireExtent_rank hfilled)).trans ?_
      exact Run.value_of_failed (image_refused harity)

theorem isStabilizer_traps_iff : Traps (isStabilizer truthValues t u).value ↔
    Overdraws (Pairing.stabilizer.requests shape shape') ∨
      shape = [] ∧ ∃ n m, shape' = [n, n, m] := by
  by_cases hscalar : shape = [] ∧ ∃ n m, shape' = [n, n, m]
  · obtain ⟨rfl, n, m, rfl⟩ := hscalar
    exact iff_of_true ⟨_, isStabilizer_scalar ht hu⟩ (.inr ⟨rfl, n, m, rfl⟩)
  · rw [or_iff_left hscalar]
    refine mapped_traps_iff hu (fun fault => Run.value_of_refused) ?_
    rintro n m rfl
    have hne : t.rank ≠ 0 := by
      rw [ht.rank_eq]
      exact fun hlength => hscalar ⟨List.eq_nil_of_length_eq_zero hlength, n, m, rfl⟩
    refine sized_traps_iff .operation ht (fun fault hfault => ?_) fun hshape => ?_
    · rw [← ht.rank_eq] at hfault
      refine (Run.value_of_checked (monoidSize_ok hu.shape_eq)).trans ?_
      exact Run.value_of_refused hfault
    · have hfilled : t.Filled (List.replicate shape.length n) := by rwa [← hshape]
      by_cases hrank : shape.length = 3 ∨ shape.length = 4
      · exact (isStabilizer_demands hfilled hu hrank).traps_iff
      · rw [stabilizerBuffers, if_neg hrank]
        rw [← ht.rank_eq] at hrank
        refine refused_traps_iff (.stabilizerArity (t.rank - 1)) ?_
        refine (Run.value_of_checked (monoidSize_ok hu.shape_eq)).trans ?_
        refine (Run.value_of_checked (requireExtent_rank hfilled)).trans ?_
        exact Run.value_of_failed (composite_refused hne hrank)

theorem isPreserved_traps_iff : Traps (isPreserved truthValues t u).value ↔
    Overdraws (Pairing.preserved.requests shape shape') := by
  unfold Pairing.requests
  refine cubed_traps_iff .operation hu (fun fault => Run.value_of_refused) ?_
  rintro n rfl
  have hcube : (isPreserved truthValues t u).value = _ :=
    Run.value_of_checked (requireCube_ok hu.shape_eq)
  dsimp only at hcube
  by_cases harity : 1 ≤ shape.length ∧ shape.length ≤ 8
  · have hrank : ¬(t.rank = 0 ∨ t.rank > 8) := by
      rw [ht.rank_eq]
      omega
    rw [if_pos harity]
    refine sized_traps_iff .relation ht (fun fault hfault => ?_) fun hshape => ?_
    · rw [← ht.rank_eq] at hfault
      rw [hcube, if_neg hrank, hu.shape_eq]
      exact Run.value_of_refused hfault
    · have hfilled : t.Filled (List.replicate shape.length n) := by rwa [← hshape]
      exact (isPreserved_demands hfilled hu harity.1 harity.2).traps_iff
  · have hrank : t.rank = 0 ∨ t.rank > 8 := by
      rw [ht.rank_eq]
      omega
    rw [if_neg harity]
    refine refused_traps_iff (.preservationArity t.rank) ?_
    rw [hcube, if_pos hrank]
    rfl

theorem isClosedSubset_traps_iff : Traps (isClosedSubset truthValues t u).value ↔
    Overdraws (Pairing.closedSubset.requests shape shape') := by
  have hmatrix : u.rank = shape'.length := hu.rank_eq
  unfold Pairing.requests
  dsimp only
  split
  next n m =>
      have hfilled : ¬ u.rank ≠ 2 := not_not_intro hmatrix
      have hheight : u.shape.headD 0 = n := by
        rw [hu.shape_eq]
        rfl
      refine sized_traps_iff .subset ht (fun fault hfault => ?_) fun hshape => ?_
      · rw [isClosedSubset, if_neg hfilled, hheight]
        exact Run.value_of_refused hfault
      · subst hshape
        exact (isClosedSubset_demands ht.shape_eq ht.inBounds hu.shape_eq hu.inBounds).traps_iff
  next hshape =>
      have hrank : u.rank ≠ 2 := by
        rw [hmatrix]
        intro hlength
        obtain ⟨n, m, rfl⟩ := List.length_eq_two.mp hlength
        exact hshape n m rfl
      refine refused_traps_iff (.notMatrix u.shape) ?_
      rw [isClosedSubset, if_pos hrank]
      rfl

end Pairs

theorem holdsOf_traps_iff (which : Pairing) {shape' : Shape} (ht : t.Filled shape)
    (hu : u.Filled shape') :
    Traps (Formula.holdsOf truthValues which t u).value ↔
      Overdraws (which.requests shape shape') ∨
        which = .stabilizer ∧ shape = [] ∧ ∃ n m, shape' = [n, n, m] := by
  cases which with
  | compatible =>
      rw [or_iff_left (by simp)]
      exact isCompatible_traps_iff ht hu
  | stabilizer =>
      rw [eq_self_iff_true, true_and]
      exact isStabilizer_traps_iff ht hu
  | preserved =>
      rw [or_iff_left (by simp)]
      exact isPreserved_traps_iff ht hu
  | closedSubset =>
      rw [or_iff_left (by simp)]
      exact isClosedSubset_traps_iff ht hu

/-! ## The matrix of a Galois connection -/

theorem unconcat_filled {front : Shape} {k : Nat} (h : t.Filled (front ++ [k])) :
    t.unconcat = (do
      Size.reserve k viewWidth
      .ok ((List.range k).map t.slice)) ∧
      ∀ part ∈ (List.range k).map t.slice, part.Filled front := by
  refine ⟨unconcat_reserve h.inBounds h.shape_eq, fun part hpart => ?_⟩
  obtain ⟨i, hi, rfl⟩ := List.mem_map.mp hpart
  have hi := List.mem_range.mp hi
  obtain ⟨hshape, hbounds, -⟩ := slice_cells h.inBounds h.shape_eq hi
  exact ⟨hshape, hbounds, h.storable.init (Nat.zero_lt_of_lt hi)⟩

/-- The entries of the matrix, row by row, and the matrix they are put into. -/
theorem entries_traps_iff {op rel : Shape} {ops rels : List (Tensor Bool)}
    (hops : ∀ o ∈ ops, o.Filled op) (hrels : ∀ r ∈ rels, r.Filled rel)
    (hsize : Shape.Storable [ops.length, rels.length]) :
    Traps (do
      let rows ← ops.mapM fun o => rels.mapM fun r => (isPreserved truthValues r o).value
      ofCells [ops.length, rels.length] rows.flatten.toArray) ↔
    0 < ops.length ∧ 0 < rels.length ∧ Overdraws (Pairing.preserved.requests rel op) := by
  by_cases h : 0 < ops.length ∧ 0 < rels.length ∧ Overdraws (Pairing.preserved.requests rel op)
  · refine iff_of_true ?_ h
    -- the shapes are those of every entry, so the first one already traps
    obtain ⟨hopsPos, hrelsPos, hover⟩ := h
    obtain ⟨o, ops, rfl⟩ := List.exists_cons_of_ne_nil (List.length_pos_iff.mp hopsPos)
    obtain ⟨r, rels, rfl⟩ := List.exists_cons_of_ne_nil (List.length_pos_iff.mp hrelsPos)
    have hentry : Traps (isPreserved truthValues r o).value :=
      (isPreserved_traps_iff (hrels r List.mem_cons_self) (hops o List.mem_cons_self)).mpr hover
    have hrow : Traps ((r :: rels).mapM fun r => (isPreserved truthValues r o).value) :=
      traps_mapM_cons hentry
    obtain ⟨cause, hcause⟩ := traps_mapM_cons (l := ops)
      (f := fun o => (r :: rels).mapM fun r => (isPreserved truthValues r o).value) hrow
    refine ⟨cause, ?_⟩
    rw [hcause]
    rfl
  · refine iff_of_false (not_traps_iff.mpr ?_) h
    refine FailsBy.bind (.mapM fun o ho => .mapM fun r hr => ?_) fun rows _ => ?_
    · refine not_traps_iff.mp fun htraps => h ⟨List.length_pos_of_mem ho,
        List.length_pos_of_mem hr, ?_⟩
      exact (isPreserved_traps_iff (hrels r hr) (hops o ho)).mp htraps
    · rw [ofCells_eq hsize]
      split
      · exact dense_failsBy (fun hnot => absurd hsize hnot) _
      · exact .throw ⟨_, rfl⟩

/-- What makes the matrix trap: the views of a stack, or the matrix itself, are too many to
be listed, or there is an entry and it asks for too much. -/
def GaloisOverdraws (ops rels : Shape) : Prop :=
  ∃ k, ops.getLast? = some k ∧ (Size.reserve k viewWidth ≠ .ok () ∨
    ∃ l, rels.getLast? = some l ∧ (Size.reserve l viewWidth ≠ .ok () ∨
      Size.reserve (k * l) 1 ≠ .ok () ∨
      0 < k ∧ 0 < l ∧ Overdraws (Pairing.preserved.requests rels.dropLast ops.dropLast)))

theorem lt_bound_of_views {k : Nat} (h : Size.reserve k viewWidth = .ok ()) :
    k < Word.bound := by
  rw [Size.reserve_ok_iff, viewWidth] at h
  exact Nat.lt_trans (by omega) (by decide : Nat.pow 2 63 < Word.bound)

/-- Behind both lists of views only the size of the matrix and its entries are left. -/
theorem views_traps_iff {op rel : Shape} {k l : Nat} (ht : t.Filled (op ++ [k]))
    (hu : u.Filled (rel ++ [l])) (hk : Size.reserve k viewWidth = .ok ())
    (hl : Size.reserve l viewWidth = .ok ()) :
    Traps (galoisConnection t u) ↔ Size.reserve (k * l) 1 ≠ .ok () ∨
      0 < k ∧ 0 < l ∧ Overdraws (Pairing.preserved.requests rel op) := by
  obtain ⟨hops, hopsFilled⟩ := unconcat_filled ht
  obtain ⟨hrels, hrelsFilled⟩ := unconcat_filled hu
  have hmatrix : galoisConnection t u = (do
      Size.reserve (← Word.check (k * l)) 1
      let rows ← ((List.range k).map t.slice).mapM fun o =>
        ((List.range l).map u.slice).mapM fun r => (isPreserved truthValues r o).value
      ofCells [k, l] rows.flatten.toArray) := by
    rw [galoisConnection, hops, hk, hrels, hl]
    simp only [bind, Except.bind, List.length_map, List.length_range]
  rw [hmatrix]
  by_cases hsize : Size.reserve (k * l) 1 = .ok ()
  · have hword : k * l < Word.bound := by
      rw [Size.reserve_ok_iff] at hsize
      exact Nat.lt_trans (by omega) (by decide : Nat.pow 2 63 < Word.bound)
    have hstorable := Shape.storable_pair (lt_bound_of_views hk) (lt_bound_of_views hl) hword
    have hentries := entries_traps_iff hopsFilled hrelsFilled (by simpa using hstorable)
    simp only [List.length_map, List.length_range] at hentries
    rw [or_iff_right (not_not_intro hsize), ← hentries, Word.check, if_pos hword]
    show Traps (Size.reserve (k * l) 1 >>= _) ↔ _
    rw [hsize]
    rfl
  · refine iff_of_true ?_ (.inl hsize)
    rw [Word.check]
    split
    · refine ⟨.capacity (k * l), ?_⟩
      show Size.reserve (k * l) 1 >>= _ = _
      rw [Size.reserve_error hsize]
      rfl
    · exact ⟨.overflow, rfl⟩

theorem galoisConnection_traps_iff {shape' : Shape} (ht : t.Filled shape)
    (hu : u.Filled shape') :
    Traps (galoisConnection t u) ↔ GaloisOverdraws shape shape' := by
  rcases List.eq_nil_or_concat' shape with rfl | ⟨op, k, rfl⟩
  · refine iff_of_false (not_traps_refused .scalarUnconcat ?_) fun h => ?_
    · rw [galoisConnection, unconcat_eq ht.inBounds, ht.shape_eq]
      rfl
    · obtain ⟨k, hk, -⟩ := h
      cases hk
  obtain ⟨hops, -⟩ := unconcat_filled ht
  simp only [GaloisOverdraws, List.getLast?_concat, List.dropLast_concat, Option.some.injEq,
    exists_eq_left']
  by_cases hk : Size.reserve k viewWidth = .ok ()
  · rw [or_iff_right (not_not_intro hk)]
    rcases List.eq_nil_or_concat' shape' with rfl | ⟨rel, l, rfl⟩
    · refine iff_of_false (not_traps_refused .scalarUnconcat ?_) fun h => ?_
      · rw [galoisConnection, hops, hk, unconcat_eq hu.inBounds, hu.shape_eq]
        rfl
      · obtain ⟨l, hl, -⟩ := h
        cases hl
    simp only [List.getLast?_concat, List.dropLast_concat, Option.some.injEq, exists_eq_left']
    by_cases hl : Size.reserve l viewWidth = .ok ()
    · rw [or_iff_right (not_not_intro hl)]
      exact views_traps_iff ht hu hk hl
    · obtain ⟨hrels, -⟩ := unconcat_filled hu
      refine iff_of_true ⟨.capacity l, ?_⟩ (.inl hl)
      rw [galoisConnection, hops, hk, hrels, Size.reserve_error hl]
      rfl
  · refine iff_of_true ⟨.capacity k, ?_⟩ (.inl hk)
    rw [galoisConnection, hops, Size.reserve_error hk]
    rfl

/-! ## All predicates -/

/-- A predicate traps exactly if it overdraws: the first of the buffers it asks for that
cannot be had has a shape whose cells can be counted, so that nothing refuses it. Besides
there is the operation without axes, whose arity the stabilizer check computes for a
message. In every other case the answer is a truth value or a refusal. -/
theorem predicates_trap_iff {shape : Shape} {cells : Array Bool} {t : Tensor Bool}
    (ht : Tensor.ofCells shape cells = .ok t) :
    (∀ which : Property, Traps (Formula.holds truthValues which t).value ↔
      Overdraws (which.requests shape)) ∧
    ∀ {shape' : Shape} {cells' : Array Bool} {u : Tensor Bool},
      Tensor.ofCells shape' cells' = .ok u →
      (∀ which : Pairing, Traps (Formula.holdsOf truthValues which t u).value ↔
        Overdraws (which.requests shape shape') ∨
          which = .stabilizer ∧ shape = [] ∧ ∃ n m, shape' = [n, n, m]) ∧
      (Traps (Relation.galoisConnection t u) ↔ GaloisOverdraws shape shape') := by
  have htFilled := Tensor.ofCells_filled ht
  refine ⟨fun which => holds_traps_iff which htFilled, fun hu => ?_⟩
  have huFilled := Tensor.ofCells_filled hu
  exact ⟨fun which => holdsOf_traps_iff which htFilled huFilled,
    galoisConnection_traps_iff htFilled huFilled⟩

/-- The identity on two elements as the only map, with a subset; and the matrix of one
operation, conjunction, and the same subset. -/
theorem predicates_trap_iff_bits :
    ∃ subset identity stack subsets, Tensor.ofCells [2] #[false, true] = .ok subset ∧
      Tensor.ofCells [2, 2, 1] #[true, false, false, true] = .ok identity ∧
      Tensor.ofCells [2, 2, 2, 1]
        #[true, true, true, false, false, false, false, true] = .ok stack ∧
      Tensor.ofCells [2, 1] #[false, true] = .ok subsets ∧
      ¬ Traps (Formula.holds truthValues .monoid identity).value ∧
      ¬ Traps (Formula.holdsOf truthValues .compatible subset identity).value ∧
      ¬ Traps (Relation.galoisConnection stack subsets) := by
  obtain ⟨subset, hsubset⟩ : ∃ t, Tensor.ofCells [2] #[false, true] = .ok t := ⟨_, rfl⟩
  obtain ⟨identity, hidentity⟩ : ∃ t,
      Tensor.ofCells [2, 2, 1] #[true, false, false, true] = .ok t := ⟨_, rfl⟩
  obtain ⟨stack, hstack⟩ : ∃ t, Tensor.ofCells [2, 2, 2, 1]
      #[true, true, true, false, false, false, false, true] = .ok t := ⟨_, rfl⟩
  obtain ⟨subsets, hsubsets⟩ : ∃ t, Tensor.ofCells [2, 1] #[false, true] = .ok t := ⟨_, rfl⟩
  refine ⟨subset, identity, stack, subsets, hsubset, hidentity, hstack, hsubsets, ?_, ?_, ?_⟩
  · rw [(predicates_trap_iff hidentity).1]
    decide
  · rw [((predicates_trap_iff hsubset).2 hidentity).1]
    rintro (hover | ⟨hwhich, -⟩)
    · exact absurd hover (by decide)
    · cases hwhich
  · rw [((predicates_trap_iff hstack).2 hsubsets).2]
    rintro ⟨k, hk, hover⟩
    cases hk
    rcases hover with hviews | ⟨l, hl, hover⟩
    · exact hviews rfl
    cases hl
    rcases hover with hviews | hmatrix | ⟨-, -, hover⟩
    · exact hviews rfl
    · exact hmatrix rfl
    · exact absurd hover (by decide)

/-- The arity of an operation without axes, and strides that multiply what stands behind
a 0: the graph has no arguments, so it is one of a function. -/
theorem predicates_trap :
    (∃ op monoid, Tensor.ofCells [] #[true] = .ok op ∧
      Tensor.ofCells [1, 1, 1] #[true] = .ok monoid ∧
      (Formula.holdsOf truthValues .stabilizer op monoid).value =
        .error (.trapped .overflow)) ∧
    ∃ graph, Tensor.ofCells [4294967296, 0, 4294967296] (#[] : Array Bool) = .ok graph ∧
      (Formula.holds truthValues .function graph).value = .error (.trapped .overflow) :=
  ⟨⟨_, _, rfl, rfl, rfl⟩, _, rfl, rfl⟩

end TensorLogic
