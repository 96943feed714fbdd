import Mathlib.Order.CompletePartialOrder
import Mathlib.Order.Concept
import TensorLogic.Proofs.Comparisons
import TensorLogic.Proofs.PredicateDemands

/-!
# Closed sets of rows

A matrix of truth values relates rows to columns. The columns that all of a set of rows
are related to, and then the rows that are related to all of these: both steps are polars
of one relation, and together they are a closure operator (`closure`). `isClosedSubset`
computes the two steps by a contraction each and compares, so it says whether the set is
its own closure (`isClosedSubset_iff`). Empty sides need no care, since a contraction by
`all` of no cells holds.

Whether there is an answer is a matter of sizes only. Both contractions lay out the whole
matrix, so it has to fit a buffer, as have its sides (`isClosedSubset_returns_iff`). A
matrix that repeats one cell is a tensor whatever its extents are, and if these are large
it is refused (`isClosedSubset_refused`).
-/

namespace TensorLogic.Relation

variable {subset galois columns r t : Tensor Bool} {n m x y : Nat}

/-! ## The closure -/

/-- The rows of a subset. -/
def rows (subset : Tensor Bool) (n : Nat) : Set (Fin n) :=
  {x | subset.get [x.val] = .ok true}

/-- Which rows are related to which columns. -/
def related (galois : Tensor Bool) (n m : Nat) (x : Fin n) (y : Fin m) : Prop :=
  galois.get [x.val, y.val] = .ok true

/-- The closure of a set of rows under a relation to columns. -/
def closure (R : Fin n → Fin m → Prop) : ClosureOperator (Set (Fin n)) :=
  (gc_upperPolar_lowerPolar R).closureOperator

theorem mem_closure_iff {R : Fin n → Fin m → Prop} {S : Set (Fin n)} {x : Fin n} :
    x ∈ closure R S ↔ ∀ y, (∀ a ∈ S, R a y) → R x y :=
  Iff.rfl

/-! ## The two contractions -/

theorem sized_sides (source : List Char) (ht : t.shape = source.map (sideExtent n m))
    (hgalois : galois.shape = [n, m]) : Join.Sized (sideExtent n m)
      [t.named (String.ofList source), galois.named (String.ofList ['x', 'y'])] := by
  refine List.forall_mem_cons.mpr ⟨?_, List.forall_mem_singleton.mpr ?_⟩
  · rw [letters_named]
    exact ht
  · rw [letters_named]
    exact hgalois

/-- A contraction with the matrix, with the coordinates of both sides written out. -/
theorem contained_iff (output source : List Char)
    (h : (truthValues.reduce .all (String.ofList output) .leq
      [t.named (String.ofList source), galois.named (String.ofList ['x', 'y'])]).value = .ok r)
    (houtput : output ⊆ ['x', 'y']) (hsource : source ⊆ ['x', 'y'])
    (ht : t.shape = source.map (sideExtent n m))
    (hgalois : galois.shape = [n, m]) (hlt : Within (sideExtent n m) output (sideExtent x y)) :
    r.get (output.map (sideExtent x y)) = .ok true ↔
      ∀ a < n, ∀ b < m, (∀ c ∈ output, sideExtent a b c = sideExtent x y c) →
        t.get (source.map (sideExtent a b)) = .ok true → galois.get [a, b] = .ok true := by
  have hsized := sized_sides source ht hgalois
  obtain ⟨z, hget, hz⟩ := Compares.leq.reduce_iff h hsized (by rwa [String.toList_ofList])
  rw [String.toList_ofList] at hget
  rw [hget, Except.ok.injEq, hz]
  simp only [cellAt_named]
  constructor
  · intro hleq a ha b hb hkept
    have hsides : Within (sideExtent n m) ['x', 'y'] (sideExtent a b) :=
      List.forall_mem_cons.mpr ⟨ha, List.forall_mem_singleton.mpr hb⟩
    refine hleq _ ⟨by rwa [String.toList_ofList],
      List.forall_mem_cons.mpr ⟨?_, List.forall_mem_singleton.mpr ?_⟩⟩
    · rw [letters_named]
      exact fun c hc => hsides c (hsource hc)
    · rw [letters_named]
      exact hsides
  · intro hpairs π hπ htrue
    have hsame : ∀ c ∈ ['x', 'y'], sideExtent (π 'x') (π 'y') c = π c :=
      List.forall_mem_cons.mpr ⟨rfl, List.forall_mem_singleton.mpr rfl⟩
    have hwithin : Within (sideExtent n m) ['x', 'y'] π := by
      have hgalois := hπ.within _ (List.mem_cons_of_mem _ (List.mem_singleton_self _))
      rwa [letters_named] at hgalois
    have hcoordinates := hwithin
    rw [Within, List.forall_mem_cons, List.forall_mem_singleton] at hcoordinates
    rw [← List.map_congr_left fun c hc => hsame c (hsource hc)] at htrue
    refine hpairs (π 'x') hcoordinates.1 (π 'y') hcoordinates.2 (fun c hc => ?_) htrue
    rw [hsame c (houtput hc), hπ.output_eq c (by rwa [String.toList_ofList])]

theorem columns_get_iff (hsubset : subset.shape = [n]) (hgalois : galois.shape = [n, m])
    (h : (truthValues.reduce .all "y" .leq [subset.named "x", galois.named "xy"]).value =
      .ok columns) (hy : y < m) :
    columns.get [y] = .ok true ↔
      ∀ a < n, subset.get [a] = .ok true → galois.get [a, y] = .ok true := by
  have hget := contained_iff ['y'] ['x'] (x := 0) h (by decide) (by decide) hsubset hgalois
    (List.forall_mem_singleton.mpr hy)
  refine hget.trans (forall₂_congr fun a ha => ⟨fun hpair => hpair y hy ?_, ?_⟩)
  · exact List.forall_mem_singleton.mpr rfl
  · intro hpair b hb hsame
    obtain rfl : b = y := hsame 'y' List.mem_cons_self
    exact hpair

theorem closure_get_iff (hcolumns : columns.shape = [m]) (hgalois : galois.shape = [n, m])
    (h : (truthValues.reduce .all "x" .leq [columns.named "y", galois.named "xy"]).value =
      .ok r) (hx : x < n) :
    r.get [x] = .ok true ↔
      ∀ b < m, columns.get [b] = .ok true → galois.get [x, b] = .ok true := by
  have hget := contained_iff ['x'] ['y'] (y := 0) h (by decide) (by decide) hcolumns hgalois
    (List.forall_mem_singleton.mpr hx)
  refine hget.trans ⟨fun hpair b hb => hpair x hx b hb ?_, ?_⟩
  · exact List.forall_mem_singleton.mpr rfl
  · intro hpair a ha b hb hsame
    obtain rfl : a = x := hsame 'x' List.mem_cons_self
    exact hpair b hb

/-! ## The answer -/

theorem isClosedSubset_iff (hsubset : subset.shape = [n]) (hgalois : galois.shape = [n, m])
    {b : Bool} (h : (isClosedSubset truthValues subset galois).value = .ok b) :
    b = true ↔ rows subset n = closure (related galois n m) (rows subset n) := by
  have hmatrix : ¬ galois.rank ≠ 2 := by
    rw [Tensor.rank, hgalois]
    simp
  have hrank : 1 = subset.rank := by
    rw [Tensor.rank, hsubset]
    rfl
  rw [isClosedSubset, if_neg hmatrix] at h
  obtain ⟨_, -, h⟩ := Run.lift_bind_eq_ok.mp (Run.value_eq_ok.mp h)
  obtain ⟨columns, s₁, hcolumns, h⟩ := Run.bind_eq_ok.mp h
  obtain ⟨closed, s₂, hclosed, h⟩ := Run.bind_eq_ok.mp h
  have hcolumns := Run.value_eq_ok.mpr hcolumns
  have hclosed := Run.value_eq_ok.mpr hclosed
  have hshape : columns.shape = [m] :=
    (Join.reduce_sized (reduce_lifted hcolumns) (sized_sides ['x'] hsubset hgalois)).1
  obtain ⟨-, hb⟩ := Compares.equ.folded_iff hrank (Run.value_eq_ok.mpr h)
  rw [hb, hsubset, Set.ext_iff, Fin.forall_iff]
  simp only [Shape.forall_mem_indices_cons, Shape.forall_mem_indices_nil]
  refine forall₂_congr fun x hx => iff_congr Iff.rfl ?_
  rw [closure_get_iff hshape hgalois hclosed hx, mem_closure_iff, Fin.forall_iff]
  refine forall₂_congr fun y hy => imp_congr ?_ Iff.rfl
  rw [columns_get_iff hsubset hgalois hcolumns hy]
  exact (Fin.forall_iff (p := fun a => a ∈ rows subset n → related galois n m a ⟨y, hy⟩)).symm

/-- The matrix fits a buffer, and each of its sides can be folded. -/
structure ClosureFits (n m : Nat) : Prop where
  matrix : Shape.Fillable [n, m] Bool
  rows : Shape.Blockable [n] Bool
  columns : Shape.Blockable [m] Bool

instance : Decidable (ClosureFits n m) :=
  decidable_of_iff
    (Shape.Fillable [n, m] Bool ∧ Shape.Blockable [n] Bool ∧ Shape.Blockable [m] Bool)
    ⟨fun h => ⟨h.1, h.2.1, h.2.2⟩, fun h => ⟨h.matrix, h.rows, h.columns⟩⟩

/-- The two contractions lay the matrix out in both orders and fold one side each, and the
closure is compared with the subset row by row. -/
theorem closureFits_iff :
    (∀ request ∈ contraction [m] [n] ++ (contraction [n] [m] ++ comparison [n]), request.Met) ↔
      ClosureFits n m := by
  simp only [contraction, comparison, Tensor.folding, List.cons_append, List.nil_append,
    List.forall_mem_cons, Request.Met]
  constructor
  · rintro ⟨-, hrows, -, hmatrix, hcolumns, -⟩
    exact ⟨hmatrix, hrows, hcolumns⟩
  · intro h
    obtain ⟨htake, hdrop⟩ := Shape.storable_iff.mp h.matrix.storable
    have hn : n < Word.bound := by simpa [Shape.cells] using htake 1
    have hm : m < Word.bound := by simpa [Shape.cells] using hdrop 1
    have hn := Shape.storable_singleton hn
    have hturned : Shape.Storable [m, n] := by
      refine Shape.storable_pair hm ?_ ?_
      · simpa [Shape.cells] using htake 1
      · simpa [Shape.cells, Nat.mul_comm] using htake 2
    have hcells : Shape.cells [m, n] = Shape.cells [n, m] := by
      simp [Shape.cells, Nat.mul_comm]
    refine ⟨⟨hturned, hcells ▸ h.matrix.reserved⟩, h.rows,
      ⟨Shape.storable_singleton hm, h.columns.reserved⟩, h.matrix, h.columns,
      ⟨hn, h.rows.reserved⟩, ⟨hn, Size.reserve_narrower (by decide) h.rows.offsets⟩, h.rows,
      by decide, by simp⟩

/-- Nothing but the sizes can keep the answer back. -/
theorem isClosedSubset_returns_iff (hsubset : subset.shape = [n]) (hbounds : subset.InBounds)
    (hgalois : galois.shape = [n, m]) (hbounds' : galois.InBounds) :
    (∃ b, (isClosedSubset truthValues subset galois).value = .ok b) ↔ ClosureFits n m :=
  (isClosedSubset_demands hsubset hbounds hgalois hbounds').returns_iff.trans closureFits_iff

/-- Accepted are the closed sets, as far as there is an answer. -/
theorem accepts_iff (hsubset : subset.shape = [n]) (hbounds : subset.InBounds)
    (hgalois : galois.shape = [n, m]) (hbounds' : galois.InBounds) :
    (isClosedSubset truthValues subset galois).value = .ok true ↔
      ClosureFits n m ∧ rows subset n = closure (related galois n m) (rows subset n) := by
  rw [← isClosedSubset_returns_iff hsubset hbounds hgalois hbounds']
  constructor
  · intro h
    exact ⟨⟨true, h⟩, (isClosedSubset_iff hsubset hgalois h).mp rfl⟩
  · rintro ⟨⟨b, h⟩, hclosed⟩
    rw [h, (isClosedSubset_iff hsubset hgalois h).mpr hclosed]

theorem closed_inter {R : Fin n → Fin m → Prop} {S T : Set (Fin n)} (hS : S = closure R S)
    (hT : T = closure R T) : S ∩ T = closure R (S ∩ T) := by
  refine Set.Subset.antisymm ((closure R).le_closure _) (Set.subset_inter ?_ ?_)
  · exact ((closure R).monotone Set.inter_subset_left).trans hS.symm.subset
  · exact ((closure R).monotone Set.inter_subset_right).trans hT.symm.subset

/-- Where `isClosedSubset` answers, it says whether the subset is its own closure, and it
answers for tensors in bounds exactly if the matrix fits a buffer and its sides can be
folded. The closure contains its set, is monotone and is done in one step; so with any
answers at all the full set is accepted, and with two subsets what they have in common. -/
theorem isClosedSubset_spec (galois : Tensor Bool) (n m : Nat) (hgalois : galois.shape = [n, m]) :
    (∀ subset b, subset.shape = [n] → (isClosedSubset truthValues subset galois).value = .ok b →
      (b = true ↔ rows subset n = closure (related galois n m) (rows subset n))) ∧
    (∀ subset, subset.shape = [n] → subset.InBounds → galois.InBounds →
      ((∃ b, (isClosedSubset truthValues subset galois).value = .ok b) ↔ ClosureFits n m)) ∧
    (∀ S T, S ⊆ closure (related galois n m) S ∧
      (S ⊆ T → closure (related galois n m) S ⊆ closure (related galois n m) T) ∧
      closure (related galois n m) (closure (related galois n m) S) =
        closure (related galois n m) S) ∧
    (∀ full, full.shape = [n] → full.InBounds → galois.InBounds → ClosureFits n m →
      rows full n = Set.univ → (isClosedSubset truthValues full galois).value = .ok true) ∧
    ∀ left right both, left.shape = [n] → left.InBounds → right.shape = [n] → right.InBounds →
      both.shape = [n] → both.InBounds → galois.InBounds →
      rows both n = rows left n ∩ rows right n →
      (isClosedSubset truthValues left galois).value = .ok true →
      (isClosedSubset truthValues right galois).value = .ok true →
      (isClosedSubset truthValues both galois).value = .ok true := by
  refine ⟨fun subset b hsubset h => isClosedSubset_iff hsubset hgalois h,
    fun subset hsubset hbounds hbounds' =>
      isClosedSubset_returns_iff hsubset hbounds hgalois hbounds', fun S T => ?_, ?_, ?_⟩
  · exact ⟨(closure _).le_closure S, fun hST => (closure _).monotone hST,
      (closure _).idempotent S⟩
  · intro full hfull hbounds hbounds' hfits hrows
    rw [accepts_iff hfull hbounds hgalois hbounds', hrows]
    exact ⟨hfits, ((closure _).closure_top).symm⟩
  · intro left right both hleft hleftBounds hright hrightBounds hboth hbothBounds hbounds hrows
      hleftAccepted hrightAccepted
    rw [accepts_iff hleft hleftBounds hgalois hbounds] at hleftAccepted
    rw [accepts_iff hright hrightBounds hgalois hbounds] at hrightAccepted
    rw [accepts_iff hboth hbothBounds hgalois hbounds, hrows]
    exact ⟨hleftAccepted.1, closed_inter hleftAccepted.2 hrightAccepted.2⟩

theorem rows_constant (n : Nat) : rows (Tensor.constant [n] true) n = Set.univ := by
  refine Set.eq_univ_of_forall fun x => (Tensor.constant_spec _ _).2 _ ?_
  exact Shape.cons_mem_indices.mpr ⟨x.isLt, Shape.mem_indices_nil.mpr rfl⟩

/-- Two rows, the first of which is related to the only column, and the set of that row. -/
def oneRelated : Tensor Bool :=
  { shape := [2, 1], strides := [1, 1], offset := 0, buffer := #[true, false] }

def firstRow : Tensor Bool :=
  { oneRelated with shape := [2], strides := [1] }

theorem isClosedSubset_spec_firstRow :
    rows firstRow 2 = closure (related oneRelated 2 1) (rows firstRow 2) ∧
      (isClosedSubset truthValues (Tensor.constant [2] true) oneRelated).value = .ok true ∧
      ∀ both : Tensor Bool, both.shape = [2] → both.InBounds →
        rows both 2 = rows firstRow 2 ∩ rows (Tensor.constant [2] true) 2 →
        (isClosedSubset truthValues both oneRelated).value = .ok true := by
  have hbounds : firstRow.InBounds := ⟨rfl, by decide, by decide⟩
  have hgalois : oneRelated.InBounds := ⟨rfl, by decide, by decide⟩
  obtain ⟨hclosed, hreturns, -, hfull, hinter⟩ := isClosedSubset_spec oneRelated 2 1 rfl
  have hfirst : (isClosedSubset truthValues firstRow oneRelated).value = .ok true := by
    decide +kernel
  have hall := hfull (Tensor.constant [2] true) rfl (Tensor.constant_spec _ _).1 hgalois
    ((hreturns firstRow rfl hbounds hgalois).mp ⟨true, hfirst⟩) (rows_constant 2)
  refine ⟨(hclosed firstRow true rfl hfirst).mp rfl, hall, fun both hboth hbothBounds hrows => ?_⟩
  exact hinter firstRow _ both rfl hbounds rfl (Tensor.constant_spec _ _).1 hboth hbothBounds
    hgalois hrows hfirst hall

/-- All rows are closed under every relation, and a large matrix is refused all the same. -/
theorem isClosedSubset_refused :
    ¬ ((isClosedSubset truthValues (Tensor.constant [4294967296] true)
        (Tensor.constant [4294967296, 4294967296] true)).value = .ok true ↔
      rows (Tensor.constant [4294967296] true) 4294967296 =
        closure (related (Tensor.constant [4294967296, 4294967296] true) 4294967296 4294967296)
          (rows (Tensor.constant [4294967296] true) 4294967296)) := by
  rw [accepts_iff rfl (Tensor.constant_spec _ _).1 rfl (Tensor.constant_spec _ _).1,
    rows_constant]
  intro h
  obtain ⟨hfits, -⟩ := h.mpr (closure _).closure_top.symm
  exact absurd hfits (by decide)

end TensorLogic.Relation
