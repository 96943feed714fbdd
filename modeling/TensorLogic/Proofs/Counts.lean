import Mathlib.Data.Set.Card
import Mathlib.Data.Sym.Card
import TensorLogic.Proofs.Classical
import TensorLogic.Proofs.Enumeration

/-!
# How many models a problem has

The gates behind the declared cells are determined by them, so a compiled problem has as many
models as solutions (`encard_models`), and an enumeration counts them (`count_spec`).

The reflexive relations are those that are free off the diagonal, the symmetric ones are
functions of unordered pairs. Both counts are therefore powers of two, for any number of
elements.
-/

namespace TensorLogic

open Cnf Faithful

/-! ## Models and solutions -/

/-- The lists of cells of which the formula holds. -/
def Problem.solutionCells (p : Problem) : Set (List Bool) :=
  {cells | ∃ b : Solution, Bindings.Listed p.shapes.entries b.entries cells ∧
    p.check b = .ok true}

section

variable {σ : Type} [Session σ] {p : Problem} {literals : Bindings Literal} {s s' : σ}

theorem Compiled.mem_solutionCells {F : Cnf} (hc : Compiled p literals F) {cells : List Bool} :
    cells ∈ p.solutionCells ↔ ∃ a, F.isModel a ∧ a.front p.declaredCells = cells := by
  constructor
  · rintro ⟨b, hb, hcheck⟩
    exact (hc.check_iff hb).mp hcheck
  · rintro ⟨a, ha, rfl⟩
    have hcount : p.declaredCells ≤ a.variables := (isModel_iff.mp ha).1 ▸ hc.covers
    obtain ⟨b, -, hb⟩ := decode_ok hc.fillable hc.listed hcount
    exact ⟨b, hb, (hc.check_iff hb).mpr ⟨a, ha, rfl⟩⟩

/-- There is one model for each solution. -/
theorem encard_models [Faithful σ] (hlinear : p.formula.linear)
    (h : p.compile s = .ok literals s') :
    {a | (formula s').isModel a}.encard = p.solutionCells.encard := by
  have hfronts : p.solutionCells =
      (fun a : Assignment => a.front p.declaredCells) '' {a | (formula s').isModel a} :=
    Set.ext fun cells => (compile_spec hlinear h).mem_solutionCells
  have hinjective : Set.InjOn (fun a : Assignment => a.front p.declaredCells)
      {a | (formula s').isModel a} :=
    fun a ha b hb hfront => front_injective hlinear h ha hb hfront
  rw [hfronts, hinjective.encard_image]

/-- Two models differ at the literal of a declared cell. -/
theorem exists_literal_of_ne [Faithful σ] (hlinear : p.formula.linear)
    (h : p.compile s = .ok literals s') {a b : Assignment} (ha : (formula s').isModel a)
    (hb : (formula s').isModel b) (hne : a ≠ b) :
    ∃ l ∈ literalsFrom 1 p.declaredCells, ∃ v, a.value l = .ok v ∧ b.value l = .ok (!v) := by
  have hcovers := (compile_spec hlinear h).covers
  obtain ⟨l, hl, hdiffers⟩ : ∃ l ∈ literalsFrom 1 p.declaredCells,
      a.satisfies l ≠ b.satisfies l := by
    by_contra hnone
    refine hne (front_injective hlinear h ha hb (List.map_congr_left fun l hl => ?_))
    by_contra hdiffers
    exact hnone ⟨l, hl, hdiffers⟩
  have hvalue : ∀ {c : Assignment}, (formula s').isModel c → c.value l = .ok (c.satisfies l) := by
    intro c hc
    have hcount : p.declaredCells ≤ c.variables := (isModel_iff.mp hc).1 ▸ hcovers
    exact Assignment.value_eq (owns_mono hcount (owns_of_mem_literalsFrom hl))
  refine ⟨l, hl, a.satisfies l, hvalue ha, ?_⟩
  rw [hvalue hb, Bool.eq_not.mpr hdiffers.symm]

/-- An enumeration counts the solutions. -/
theorem count_spec [CompleteSession σ] (hlinear : p.formula.linear)
    (h : p.compile s = .ok literals s') :
    ∃ k s'', p.count s = .ok k s'' ∧ p.solutionCells.encard = k := by
  have hc := compile_spec hlinear h
  obtain ⟨sols, all, s₂, hrun, hall⟩ := foldSolutions_spec (fun k _ => k + 1) 0 hc
  have hcells : p.solutionCells = {cells | cells ∈ all} :=
    Set.ext fun cells => hc.mem_solutionCells.trans (hall.exact cells).symm
  rw [List.foldl_add_const, Nat.zero_add, Nat.one_mul] at hrun
  refine ⟨sols.length, Session.clear s₂, thenClear_ok ?_, ?_⟩
  · refine Run.bind_eq_ok.mpr ⟨{ literals }, s', ?_, hrun⟩
    exact Run.bind_eq_ok.mpr ⟨literals, s', h, rfl⟩
  · rw [hcells, ← List.coe_toFinset, Set.encard_coe_eq_coe_finsetCard,
      List.toFinset_card_of_nodup hall.nodup, hall.listed.length_eq]

end

/-! ## Relations as lists of cells -/

namespace Relation

variable {n : Nat} {R : Fin n → Fin n → Bool} {t : Tensor Bool} {cells : List Bool}

/-- The cell of a relation at an index of two coordinates. -/
def entry (R : Fin n → Fin n → Bool) : Index → Bool
  | [x, y] => if h : x < n ∧ y < n then R ⟨x, h.1⟩ ⟨y, h.2⟩ else false
  | _ => false

@[simp] theorem entry_pair (x y : Fin n) : entry R [x.val, y.val] = R x y :=
  dif_pos ⟨x.isLt, y.isLt⟩

/-- The cells of a relation in row-major order. -/
def relationCells (R : Fin n → Fin n → Bool) : List Bool :=
  (Shape.indices [n, n]).map (entry R)

theorem relationCells_injective : Function.Injective (relationCells (n := n)) := by
  intro R R' h
  funext x y
  have hentry := List.map_inj_left.mp h [x, y] (Shape.pair_mem_indices x.isLt y.isLt)
  rwa [entry_pair, entry_pair] at hentry

theorem related_iff (h : t.Lists [n, n] (relationCells R)) (x y : Fin n) :
    related t n n x y ↔ R x y = true := by
  have hreads := h.reads
  rw [relationCells, List.forall₂_map_right_iff, List.forall₂_same] at hreads
  rw [related, hreads [x, y] (Shape.pair_mem_indices x.isLt y.isLt), entry_pair, Except.ok.injEq]

theorem exists_relation (h : t.Lists [n, n] cells) : ∃ R, cells = relationCells (n := n) R := by
  classical
  have hread := mapM_eq_ok.mpr h.reads
  have hentry : ∀ index ∈ Shape.indices [n, n],
      t.get index = .ok (entry (fun x y => decide (related t n n x y)) index) := by
    intro index hindex
    obtain ⟨c, -, hc⟩ := (exists_of_forall₂ h.reads).1 index hindex
    obtain ⟨x, y, rfl⟩ := Shape.mem_indices_pair.mp hindex
    rw [entry_pair, related, hc]
    cases c <;> simp
  refine ⟨fun x y => decide (related t n n x y), Except.ok.inj (hread.symm.trans ?_)⟩
  rw [relationCells, mapM_eq_ok, List.forall₂_map_right_iff, List.forall₂_same]
  exact hentry

/-- The solutions of a ready-made problem are the relations with the property. -/
theorem solutionCells_eq {σ : Type} [Session σ] [Faithful σ] {which : RelationProperty}
    {p : Problem} {literals : Bindings Literal} {s s' : σ} (hp : which.problem n = .ok p)
    (h : p.compile s = .ok literals s') :
    p.solutionCells = relationCells '' {R : Fin n → Fin n → Bool |
      which.Holds fun x y => R x y = true} := by
  obtain ⟨hshapes, hformula⟩ := Problem.declare_single hp
  have hlinear : p.formula.linear := by
    rw [hformula]
    cases which <;> decide
  have hcheck : ∀ {b : Solution} {R : Fin n → Fin n → Bool},
      Bindings.Listed p.shapes.entries b.entries (relationCells R) →
      (p.check b = .ok true ↔ which.Holds fun x y => R x y = true) := by
    intro b R hb
    obtain ⟨value, hvalue⟩ := check_returns_of_compile hlinear h hb
    have hcompute := (Problem.check_eq hb).symm.trans hvalue
    rw [hshapes] at hb
    obtain ⟨t, hfind, ht⟩ := hb.find?_single
    rw [hformula] at hcompute
    have hR : related t n n = fun x y => R x y = true :=
      funext₂ fun x y => propext (related_iff ht x y)
    rw [hvalue, Except.ok.injEq, ← hR]
    exact RelationProperty.holds_iff ht.shape_eq (holds_of_compute hfind hcompute)
  ext cells
  constructor
  · rintro ⟨b, hb, htrue⟩
    have hlisted := hb
    rw [hshapes] at hlisted
    obtain ⟨t, -, ht⟩ := hlisted.find?_single
    obtain ⟨R, rfl⟩ := exists_relation ht
    exact ⟨R, (hcheck hb).mp htrue, rfl⟩
  · rintro ⟨R, hR, rfl⟩
    have hstorable : Shape.Storable [n, n] :=
      ((compile_spec hlinear h).fillable (relationVariable, [n, n]) (by simp [hshapes])).storable
    obtain ⟨t, ht⟩ := Tensor.dense_of_storable hstorable (relationCells R).toArray
    have hlists := Tensor.dense_lists ht (by simp [relationCells, Shape.length_indices])
    let b : Solution := ⟨[(relationVariable, t)], List.pairwise_singleton _ _⟩
    have hb : Bindings.Listed p.shapes.entries b.entries (relationCells R) := by
      rw [hshapes]
      exact .single hlists
    exact ⟨b, hb, (hcheck hb).mpr hR⟩

/-! ## Free cells -/

/-- A reflexive relation is free off the diagonal. -/
def reflexiveEquiv (n : Nat) : {R : Fin n → Fin n → Bool // ∀ x, R x x = true} ≃
    ({c : Fin n × Fin n // c.1 ≠ c.2} → Bool) where
  toFun R c := R.1 c.1.1 c.1.2
  invFun f := ⟨fun x y => if h : x = y then true else f ⟨(x, y), h⟩, fun x => dif_pos rfl⟩
  left_inv R := by
    ext x y
    by_cases hxy : x = y
    · subst hxy
      simp [R.2 x]
    · simp [hxy]
  right_inv f := by
    funext ⟨⟨x, y⟩, hxy⟩
    exact dif_neg hxy

theorem card_offDiagonal (n : Nat) :
    Fintype.card {c : Fin n × Fin n // c.1 ≠ c.2} = n * n - n := by
  rw [Fintype.card_subtype]
  have hdiagonal : (Finset.univ.filter fun c : Fin n × Fin n => c.1 ≠ c.2) =
      Finset.univ.offDiag := by
    ext c
    simp
  rw [hdiagonal, Finset.offDiag_card, Finset.card_univ, Fintype.card_fin]

/-- A symmetric relation is a function of unordered pairs. -/
def symmetricEquiv (n : Nat) :
    {R : Fin n → Fin n → Bool // ∀ x y, R x y = true → R y x = true} ≃ (Sym2 (Fin n) → Bool) :=
  (Equiv.subtypeEquivRight fun R => by
    constructor
    · intro h x y
      exact Bool.eq_iff_iff.mpr ⟨h x y, h y x⟩
    · intro h x y hxy
      exact h x y ▸ hxy).trans Sym2.lift

theorem encard_of_equiv {P : (Fin n → Fin n → Bool) → Prop} {ι : Type} [Fintype ι]
    [DecidableEq ι] (e : {R // P R} ≃ (ι → Bool)) :
    {R | P R}.encard = ((2 ^ Fintype.card ι : Nat) : ℕ∞) := by
  have hcard : ENat.card {R | P R} = ENat.card (ι → Bool) := ENat.card_congr e
  rw [Set.encard, hcard, ENat.card_eq_coe_fintype_card, Fintype.card_fun, Fintype.card_bool]

end Relation

open TensorLogic.Relation

/-- The number of relations with a property that leaves `k` cells free. -/
theorem encard_holds {n k : Nat} {which : RelationProperty}
    (hk : which = .reflexive ∧ k = n * n - n ∨ which = .symmetric ∧ k = n * (n + 1) / 2) :
    {R : Fin n → Fin n → Bool | which.Holds fun x y => R x y = true}.encard =
      ((2 ^ k : Nat) : ℕ∞) := by
  obtain ⟨rfl, rfl⟩ | ⟨rfl, rfl⟩ := hk
  · rw [← card_offDiagonal]
    exact encard_of_equiv (reflexiveEquiv n)
  · have hpairs : Fintype.card (Sym2 (Fin n)) = n * (n + 1) / 2 := by
      rw [Sym2.card, Fintype.card_fin, Nat.choose_two_right, Nat.add_sub_cancel, Nat.mul_comm]
    rw [← hpairs]
    exact encard_of_equiv (symmetricEquiv n)

/-- The session that a compilation leaves for the reflexive relations on `n` elements has
`2 ^ (n * n - n)` models, and `2 ^ (n * (n + 1) / 2)` for the symmetric ones. Any two of them
differ at a declared cell, so that is what a complete solver counts. -/
theorem model_counts {n k : Nat} {which : RelationProperty} {p : Problem}
    (hk : which = .reflexive ∧ k = n * n - n ∨ which = .symmetric ∧ k = n * (n + 1) / 2)
    (hp : which.problem n = .ok p) :
    (∀ {σ : Type} [Session σ] [Faithful σ] (s s' : σ) (literals : Bindings Literal),
      p.compile s = .ok literals s' →
      {a | (formula s').isModel a}.encard = ((2 ^ k : Nat) : ℕ∞) ∧
        ∃ t, literals.find? relationVariable = some t ∧ t.shape = [n, n] ∧
          ∀ a b : Assignment, (formula s').isModel a → (formula s').isModel b → a ≠ b →
            ∃ (x y : Fin n) (l : Literal) (v : Bool), t.get [x.val, y.val] = .ok l ∧
              a.value l = .ok v ∧ b.value l = .ok (!v)) ∧
    ∀ {τ : Type} [Session τ] [CompleteSession τ] (s s' : τ) (literals : Bindings Literal),
      p.compile s = .ok literals s' → 2 ^ k < Word.bound →
      ∃ s'', p.count s = .ok (2 ^ k) s'' := by
  obtain ⟨hshapes, hformula⟩ := Problem.declare_single hp
  have hlinear : p.formula.linear := by
    rw [hformula]
    cases which <;> decide
  have hsolutions : ∀ {σ : Type} [Session σ] [Faithful σ] {s s' : σ}
      {literals : Bindings Literal}, p.compile s = .ok literals s' →
      p.solutionCells.encard = ((2 ^ k : Nat) : ℕ∞) := by
    intro σ _ _ s s' literals hcompile
    rw [solutionCells_eq hp hcompile, relationCells_injective.encard_image, encard_holds hk]
  constructor
  · intro σ _ _ s s' literals hcompile
    refine ⟨(encard_models hlinear hcompile).trans (hsolutions hcompile), ?_⟩
    have hlisted := (compile_spec hlinear hcompile).listed
    rw [hshapes] at hlisted
    obtain ⟨t, hfind, ht⟩ := hlisted.find?_single
    refine ⟨t, hfind, ht.shape_eq, fun a b ha hb hne => ?_⟩
    obtain ⟨l, hl, v, hav, hbv⟩ := exists_literal_of_ne hlinear hcompile ha hb hne
    obtain ⟨index, hindex, hget⟩ := (exists_of_forall₂ ht.reads).2 l hl
    obtain ⟨x, y, rfl⟩ := Shape.mem_indices_pair.mp hindex
    exact ⟨x, y, l, v, hget, hav, hbv⟩
  · intro τ _ _ s s' literals hcompile _
    obtain ⟨count, s'', hcount, hcells⟩ := count_spec hlinear hcompile
    have hsame : count = 2 ^ k := ENat.natCast_inj.mp (hcells.symm.trans (hsolutions hcompile))
    exact ⟨s'', hsame ▸ hcount⟩

theorem symmetricPair_compile : ∃ literals s',
    (relationPair .symmetric).compile ({} : ExhaustiveSession) = .ok literals s' :=
  Run.exists_of_returns (by decide +kernel)

/-- Of the 16 relations on two elements 8 are symmetric. -/
theorem model_counts_pair :
    RelationProperty.symmetric.problem 2 = .ok (relationPair .symmetric) ∧
      ∃ (literals : Bindings Literal) (s' : ExhaustiveSession),
        (relationPair .symmetric).compile ({} : ExhaustiveSession) = .ok literals s' ∧
        {a | (formula s').isModel a}.encard = ((8 : Nat) : ℕ∞) ∧
        ∃ s'', (relationPair .symmetric).count ({} : ExhaustiveSession) = .ok 8 s'' := by
  have hproblem : RelationProperty.symmetric.problem 2 = .ok (relationPair .symmetric) := rfl
  obtain ⟨literals, s', hcompile⟩ := symmetricPair_compile
  obtain ⟨hmodels, hcount⟩ := model_counts (.inr ⟨rfl, rfl⟩) hproblem
  exact ⟨hproblem, literals, s', hcompile, (hmodels _ _ _ hcompile).1,
    hcount _ _ _ hcompile (by decide)⟩

end TensorLogic
