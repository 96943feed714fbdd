import TensorLogic.Problem.Models
import TensorLogic.Proofs.Capacity
import TensorLogic.Proofs.Compilation
import TensorLogic.Proofs.Listing

/-!
# The literals of the declared cells

Compiling a problem starts from an empty session, so the literals of the declared cells
are the first variables of all, in the order of the cells: what an assignment says about
them is its front part, and every front part is possible (`Assignment.front`).

The formula is asserted after that. An assignment with a given front part satisfies the
session exactly if the formula holds of the tensors that list this front part, and the
rest of the assignment are the gates (`compile_spec`).
-/

namespace TensorLogic

open Cnf Faithful

/-- The literals of `count` variables from `first` on. -/
def literalsFrom (first count : Nat) : List Literal :=
  (List.range' first count).map fun (v : Nat) => (v : Literal)

theorem literalsFrom_append (first m n : Nat) :
    literalsFrom first (m + n) = literalsFrom first m ++ literalsFrom (first + m) n := by
  rw [literalsFrom, literalsFrom, literalsFrom, ← List.map_append, List.range'_append_1]

theorem length_literalsFrom (first count : Nat) : (literalsFrom first count).length = count := by
  rw [literalsFrom, List.length_map, List.length_range']

theorem owns_natCast {count v : Nat} (hpos : 0 < v) (hle : v ≤ count) :
    owns count (v : Literal) := by
  refine owns_iff.mpr ⟨Literal.ne_zero_of_pos (Literal.natCast_pos hpos), ?_⟩
  rwa [Literal.var_natCast]

theorem owns_of_mem_literalsFrom {count : Nat} {l : Literal} (h : l ∈ literalsFrom 1 count) :
    owns count l := by
  obtain ⟨v, hv, rfl⟩ := List.mem_map.mp h
  obtain ⟨hpos, hlt⟩ := List.mem_range'_1.mp hv
  exact owns_natCast (by omega) (by omega)

namespace Assignment

/-- The values of the first `count` variables. -/
def front (a : Assignment) (count : Nat) : List Bool :=
  (literalsFrom 1 count).map a.satisfies

theorem length_front (a : Assignment) (count : Nat) : (a.front count).length = count := by
  rw [front, List.length_map, length_literalsFrom]

theorem satisfies_ofNat {a : Assignment} {k : Nat} (hk : k < a.values.size) :
    a.satisfies ((1 + k : Nat) : Literal) = getElem a.values k hk := by
  have hown : owns a.variables ((1 + k : Nat) : Literal) :=
    owns_natCast (by omega) (by rw [Assignment.variables]; omega)
  have hpos : decide (((1 + k : Nat) : Literal) > 0) = true :=
    decide_eq_true (Literal.natCast_pos (by omega))
  have hplace : ((1 + k : Nat) : Literal).var - 1 = k := by
    rw [Literal.var_natCast]
    omega
  rw [satisfies_iff hown, hpos]
  simp only [hplace, beq_true]

theorem front_eq {a : Assignment} {count : Nat} (h : count ≤ a.variables) :
    a.front count = a.values.toList.take count := by
  have hlen : (a.front count).length = (a.values.toList.take count).length := by
    rw [length_front, List.length_take, length_values, Nat.min_eq_left h]
  refine List.ext_getElem hlen fun k hk hk' => ?_
  have hsize : k < a.values.size := by
    rw [length_front] at hk
    exact Nat.lt_of_lt_of_le hk h
  simp only [front, literalsFrom, List.map_map, List.getElem_map, List.getElem_range',
    Function.comp_apply, Nat.one_mul, List.getElem_take, Array.getElem_toList]
  exact satisfies_ofNat hsize

/-- An assignment goes on from its front part. -/
theorem extends_front {a : Assignment} {count : Nat} (h : count ≤ a.variables) :
    a.Extends ⟨(a.front count).toArray⟩ := by
  rw [front_eq h]
  exact List.take_prefix _ _

/-- Every list is the front part of an assignment. -/
theorem front_mk (cells : List Bool) :
    (Assignment.mk cells.toArray).front cells.length = cells := by
  have hcount : cells.length ≤ (Assignment.mk cells.toArray).variables := Nat.le_refl _
  rw [front_eq hcount, List.take_length]

theorem Extends.front_eq {a b : Assignment} (h : b.Extends a) :
    b.front a.variables = a.front a.variables :=
  List.map_congr_left fun _ hl => h.satisfies_eq (owns_of_mem_literalsFrom hl)

end Assignment

/-! ## Allocation -/

variable {σ : Type} [Session σ] [Faithful σ]

/-- One variable for each member of a list: the next ones, in order. -/
theorem allocateAll_ok {ι : Type} {l : List ι} {s s' : σ} {ls : List Literal}
    (h : (l.mapM fun _ => Session.allocate) s = .ok ls s') :
    ls = literalsFrom ((formula s).variables + 1) l.length ∧
      formula s' = ⟨(formula s).variables + l.length, (formula s).clauses⟩ := by
  induction l generalizing s ls with
  | nil =>
      cases h
      exact ⟨rfl, rfl⟩
  | cons _ l ih =>
      rw [List.mapM_cons] at h
      obtain ⟨first, s₁, hfirst, h⟩ := Run.bind_eq_ok.mp h
      obtain ⟨rest, s₂, hrest, h⟩ := Run.bind_eq_ok.mp h
      cases h
      rcases allocate_spec s with ⟨s₁', hallocate, hformula⟩ | ⟨n, s₁', hallocate⟩
      · rw [hallocate] at hfirst
        cases hfirst
        obtain ⟨rfl, hformula'⟩ := ih hrest
        rw [hformula', hformula, Cnf.allocate]
        refine ⟨rfl, ?_⟩
        simp only [List.length_cons, Cnf.mk.injEq, and_true]
        omega
      · rw [hallocate] at hfirst
        cases hfirst

theorem tensor_ok {shape : Shape} {t : Tensor Literal} {s s' : σ}
    (h : Session.tensor shape s = .ok t s') :
    shape.Fillable Literal ∧ t.Lists shape (literalsFrom ((formula s).variables + 1) shape.cells) ∧
      formula s' = ⟨(formula s).variables + shape.cells, (formula s).clauses⟩ := by
  have hfill := Tensor.generate_ok h
  rw [Tensor.fill, Shape.collect_eq, bind_map_left] at hfill
  obtain ⟨ls, s₁, hls, hfill⟩ := Run.bind_eq_ok.mp hfill
  obtain ⟨hdense, rfl⟩ := Run.lift_eq_ok.mp hfill
  obtain ⟨hlits, hformula⟩ := allocateAll_ok hls
  rw [Shape.length_indices] at hlits hformula
  have hlen : ls.length = shape.cells := by rw [hlits, length_literalsFrom]
  rw [← hlits]
  exact ⟨Tensor.fillable_of_generate h, Tensor.dense_lists hdense hlen, hformula⟩

theorem allocateEntries_ok {declared : List (String × Shape)}
    {entries : List (String × Tensor Literal)} {s s' : σ}
    (h : (declared.mapM fun (declaration : String × Shape) => do
      let t ← Session.tensor declaration.2
      pure (declaration.1, t)) s = .ok entries s') :
    (∀ declaration ∈ declared, declaration.2.Fillable Literal) ∧
      Bindings.Listed declared entries
        (literalsFrom ((formula s).variables + 1) (cellsOf declared)) ∧
      formula s' = ⟨(formula s).variables + cellsOf declared, (formula s).clauses⟩ := by
  induction declared generalizing s entries with
  | nil =>
      cases h
      exact ⟨by simp, .nil, rfl⟩
  | cons declaration declared ih =>
      rw [List.mapM_cons] at h
      obtain ⟨entry, s₁, hentry, h⟩ := Run.bind_eq_ok.mp h
      obtain ⟨rest, s₂, hrest, h⟩ := Run.bind_eq_ok.mp h
      cases h
      obtain ⟨t, s₁', ht, hentry⟩ := Run.bind_eq_ok.mp hentry
      cases hentry
      obtain ⟨hfill, hlists, hformula⟩ := tensor_ok ht
      obtain ⟨hall, hlisted, hformula'⟩ := ih hrest
      refine ⟨List.forall_mem_cons.mpr ⟨hfill, hall⟩, ?_, ?_⟩
      · rw [cellsOf, literalsFrom_append]
        refine .cons hlists ?_
        rw [hformula, Nat.add_right_comm] at hlisted
        exact hlisted
      · rw [hformula', hformula, cellsOf, Nat.add_assoc]

namespace Problem

def declaredCells (p : Problem) : Nat :=
  cellsOf p.shapes.entries

theorem allocate_ok {p : Problem} {literals : Bindings Literal} {s s' : σ}
    (h : p.allocate s = .ok literals s') :
    (∀ declaration ∈ p.shapes.entries, declaration.2.Fillable Literal) ∧
      Bindings.Listed p.shapes.entries literals.entries
        (literalsFrom ((Faithful.formula s).variables + 1) p.declaredCells) ∧
      Faithful.formula s' =
        ⟨(Faithful.formula s).variables + p.declaredCells, (Faithful.formula s).clauses⟩ :=
  allocateEntries_ok (NameMap.mapM_run h)

end Problem

/-! ## Decoding -/

def Tensor.decode (a : Assignment) (t : Tensor Literal) : Except Fault (Tensor Bool) :=
  Run.value <| t.map fun literal => do
    let value : Bool ← a.value literal
    pure value

/-- Where literals could be allocated, there is room for as many truth values. -/
theorem Tensor.decode_ok {a : Assignment} {shape : Shape} {cells : List Literal}
    {t : Tensor Literal} (hfill : shape.Fillable Literal) (ht : t.Lists shape cells)
    (howned : ∀ l ∈ cells, owns a.variables l) :
    ∃ u, t.decode a = .ok u ∧ u.Lists shape (cells.map a.satisfies) := by
  have hgrow : shape.Growable Bool := hfill.growable (by decide)
  obtain ⟨u, hu⟩ := dense_of_storable hfill.storable (cells.map a.satisfies).toArray
  refine ⟨u, Run.value_eq_ok.mpr ?_, dense_lists hu ?_⟩
  · have hcells : List.Forall₂ (fun index value => (do
        let literal : Literal ← t.get index
        let value : Bool ← a.value literal
        pure value : Run Unit Bool) () = .ok value ()) shape.indices
        (cells.map a.satisfies) := by
      rw [List.forall₂_map_right_iff, List.forall₂_iff_get]
      refine ⟨ht.reads.length_eq, fun k hk hk' => ?_⟩
      obtain ⟨_, hget⟩ := ht.get_eq hk
      have hvalue := Assignment.value_eq (howned _ (List.getElem_mem hk'))
      exact Run.lift_bind_eq_ok.mpr ⟨_, hget, Run.lift_eq_ok.mpr ⟨hvalue, rfl⟩⟩
    rw [map_eq, ht.shape_eq, fill_grown hgrow.grows, fill, Shape.collect_eq, bind_map_left]
    exact Run.bind_eq_ok.mpr ⟨_, (), Run.mapM_eq_ok hcells, Run.lift_eq_ok.mpr ⟨hu, rfl⟩⟩
  · rw [List.size_toArray, List.length_map, ht.length_eq]

theorem Bindings.Listed.decode {a : Assignment} {declared : List (String × Shape)}
    {entries : List (String × Tensor Literal)} {cells : List Literal}
    (h : Listed declared entries cells)
    (hfill : ∀ declaration ∈ declared, declaration.2.Fillable Literal)
    (howned : ∀ l ∈ cells, owns a.variables l) :
    ∃ images, List.Forall₂ (fun e e' => e.1 = e'.1 ∧ e.2.decode a = .ok e'.2) entries images ∧
      Listed declared images (cells.map a.satisfies) := by
  induction h with
  | nil => exact ⟨[], .nil, .nil⟩
  | @cons name shape t cells rest declared entries h _ ih =>
      obtain ⟨hshape, hdeclared⟩ := List.forall_mem_cons.mp hfill
      obtain ⟨hcells, hrest⟩ := List.forall_mem_append.mp howned
      obtain ⟨u, hu, hlists⟩ := Tensor.decode_ok hshape h hcells
      obtain ⟨images, himages, hlisted⟩ := ih hdeclared hrest
      refine ⟨(name, u) :: images, .cons ⟨rfl, hu⟩ himages, ?_⟩
      rw [List.map_append]
      exact .cons hlists hlisted

/-- Decoding gives the tensors that list the front part of the assignment. -/
theorem decode_ok {p : Problem} {literals : Bindings Literal} {a : Assignment}
    (hfill : ∀ declaration ∈ p.shapes.entries, declaration.2.Fillable Literal)
    (hlisted : Bindings.Listed p.shapes.entries literals.entries
      (literalsFrom 1 p.declaredCells)) (hcount : p.declaredCells ≤ a.variables) :
    ∃ b, TensorLogic.decode literals a = .ok b ∧
      Bindings.Listed p.shapes.entries b.entries (a.front p.declaredCells) := by
  obtain ⟨images, himages, himage⟩ := hlisted.decode hfill fun l hl =>
    owns_mono hcount (owns_of_mem_literalsFrom hl)
  obtain ⟨b, hb, rfl⟩ := NameMap.mapM_ok (f := fun _ (t : Tensor Literal) => t.decode a) himages
  exact ⟨b, hb, himage⟩

/-! ## Checking -/

namespace Problem

omit [Session σ] [Faithful σ]

theorem checkShapes_eq {p : Problem} {entries : List (String × Tensor Bool)}
    (h : ∀ entry ∈ entries, p.shapes.find? entry.1 = some entry.2.shape) :
    p.checkShapes entries = .ok () := by
  induction entries with
  | nil => rfl
  | cons entry rest ih =>
      obtain ⟨hentry, hrest⟩ := List.forall_mem_cons.mp h
      simp only [checkShapes, hentry, if_true]
      exact ih hrest

/-- Of tensors that fit the declarations, checking evaluates the formula. -/
theorem check_eq {p : Problem} {b : Solution} {cells : List Bool}
    (h : Bindings.Listed p.shapes.entries b.entries cells) :
    p.check b = Run.value (p.formula.compute truthValues b) := by
  obtain ⟨hleft, hright⟩ := exists_of_forall₂ h.fit
  have hshapes : p.checkShapes b.entries = .ok () := by
    refine checkShapes_eq fun entry hentry => ?_
    obtain ⟨declaration, hdeclaration, hname, hshape, -⟩ := hright entry hentry
    rw [← hname, hshape]
    exact NameMap.find?_of_mem hdeclaration
  have hnames : (p.shapes.names.find? fun name => (b.find? name).isNone) = none := by
    refine List.find?_eq_none.mpr fun name hname => ?_
    obtain ⟨declaration, hdeclaration, rfl⟩ := List.mem_map.mp hname
    obtain ⟨entry, hentry, heq, -⟩ := hleft declaration hdeclaration
    rw [heq, NameMap.find?_of_mem hentry]
    simp
  simp only [check, hshapes, hnames]
  rfl

/-- A single declaration is entered as it is. -/
theorem declare_single {p : Problem} {name : String} {shape : Shape} {formula : Formula}
    (h : declare [(name, shape)] formula = .ok p) :
    p.shapes.entries = [(name, shape)] ∧ p.formula = formula := by
  obtain ⟨shapes, hshapes, hp⟩ := bind_eq_ok.mp h
  cases hp
  obtain ⟨_, -, hshapes⟩ := bind_eq_ok.mp hshapes
  cases hshapes
  exact ⟨rfl, rfl⟩

theorem shape_of_checkShapes {p : Problem} {entries : List (String × Tensor Bool)}
    (h : p.checkShapes entries = .ok ()) {entry : String × Tensor Bool}
    (hentry : entry ∈ entries) : p.shapes.find? entry.1 = some entry.2.shape := by
  induction entries with
  | nil => cases hentry
  | cons first rest ih =>
      rw [checkShapes] at h
      split at h
      next => cases h
      next shape hshape =>
        split at h
        next heq =>
          rcases List.mem_cons.mp hentry with rfl | hrest
          · rw [hshape, heq]
          · exact ih h hrest
        next => cases h

/-- Where a check answers, every declared variable has a tensor of the declared shape. -/
theorem check_ok {p : Problem} {b : Solution} {answer : Bool} (h : p.check b = .ok answer) :
    (∀ declaration ∈ p.shapes.entries,
      ∃ t, b.find? declaration.1 = some t ∧ t.shape = declaration.2) ∧
    Run.value (p.formula.compute truthValues b) = .ok answer := by
  obtain ⟨_, hshapes, h⟩ := bind_eq_ok.mp h
  split at h
  next => cases h
  next hnames =>
    refine ⟨fun declaration hdeclaration => ?_, h⟩
    have hbound := List.find?_eq_none.mp hnames _ (List.mem_map_of_mem hdeclaration)
    rw [Option.isNone_iff_eq_none] at hbound
    obtain ⟨t, ht⟩ := Option.ne_none_iff_exists'.mp hbound
    have hshape := shape_of_checkShapes hshapes (NameMap.mem_of_find? ht)
    rw [NameMap.find?_of_mem hdeclaration] at hshape
    exact ⟨t, ht, (Option.some.inj hshape).symm⟩

end Problem

/-! ## Compiling -/

/-- What the clauses say once a problem is compiled. The assignments that satisfy them
list, at the front, exactly the tensors of which the formula holds. -/
structure Compiled (p : Problem) (literals : Bindings Literal) (F : Cnf) : Prop where
  fillable : ∀ declaration ∈ p.shapes.entries, declaration.2.Fillable Literal
  listed : Bindings.Listed p.shapes.entries literals.entries (literalsFrom 1 p.declaredCells)
  covers : p.declaredCells ≤ F.variables
  check_iff : ∀ {b : Solution} {cells : List Bool},
    Bindings.Listed p.shapes.entries b.entries cells →
    (p.check b = .ok true ↔ ∃ a, F.isModel a ∧ a.front p.declaredCells = cells)

/-- Tensors that list what an assignment says about the literals read them off. -/
theorem Bindings.Listed.reads {p : Problem} {literals : Bindings Literal} {b : Solution}
    {a : Assignment} (hcount : p.declaredCells ≤ a.variables)
    (h : Listed p.shapes.entries literals.entries (literalsFrom 1 p.declaredCells))
    (hb : Listed p.shapes.entries b.entries (a.front p.declaredCells)) : literals.Reads a b := by
  refine NameMap.Paired.find?_rel ((h.alike_iff hb).mpr ?_)
  rw [Assignment.front, List.forall₂_map_right_iff, List.forall₂_same]
  intro l hl
  exact Assignment.value_eq (owns_mono hcount (owns_of_mem_literalsFrom hl))

section

variable {p : Problem} {literals : Bindings Literal} {s s' : σ} {holds : Literal}

/-- Next to a check of the tensors that an assignment of the declared cells lists. -/
theorem compute_declared (hlinear : p.formula.linear)
    (hlisted : Bindings.Listed p.shapes.entries literals.entries
      (literalsFrom 1 p.declaredCells))
    (hformula : formula s = ⟨p.declaredCells, #[]⟩)
    (hcompute : p.formula.compute Clausal.literals literals s = .ok holds s')
    {a : Assignment} (ha : a.variables = p.declaredCells) {b : Solution}
    (hb : Bindings.Listed p.shapes.entries b.entries (a.front p.declaredCells)) :
    Conservative (formula s) (formula s') ∧ owns (formula s').variables holds ∧
      ∃ value, p.check b = .ok value ∧ (∃ c, c.Extends a ∧ (formula s').isModel c) ∧
        ∀ c : Assignment, c.Extends a → (formula s').isModel c → c.satisfies holds = value := by
  have hmodel : (formula s).isModel a := by
    rw [hformula]
    exact isModel_iff.mpr ⟨ha, by simp⟩
  have hreads := hlisted.reads ha.ge hb
  obtain ⟨hgrows, value, hvalue, hown, hsame⟩ :=
    compute_follows hlinear (hreads.alike rfl hmodel) hcompute
  refine ⟨hgrows, hown, value, ?_, hgrows.extends_model a hmodel, fun c hca hc => ?_⟩
  · rw [Problem.check_eq hb, hvalue]
  · exact hsame c hmodel hca hc

/-- The clauses of the formula, with the formula asserted, over a session that holds the
declared cells only. -/
theorem compiled_of_compute (hlinear : p.formula.linear)
    (hfill : ∀ declaration ∈ p.shapes.entries, declaration.2.Fillable Literal)
    (hlisted : Bindings.Listed p.shapes.entries literals.entries
      (literalsFrom 1 p.declaredCells))
    (hformula : formula s = ⟨p.declaredCells, #[]⟩)
    (hcompute : p.formula.compute Clausal.literals literals s = .ok holds s') :
    owns (formula s').variables holds ∧
      Compiled p literals ((formula s').ensure [holds]) := by
  obtain ⟨hown, hcovers⟩ : owns (formula s').variables holds ∧
      p.declaredCells ≤ (formula s').variables := by
    let a : Assignment := { values := Array.replicate p.declaredCells false }
    have ha : a.variables = p.declaredCells := Array.size_replicate
    obtain ⟨b, -, hb⟩ := decode_ok hfill hlisted ha.ge
    obtain ⟨hgrows, hown, -⟩ := compute_declared hlinear hlisted hformula hcompute ha hb
    have hle := hgrows.grows
    rw [hformula] at hle
    exact ⟨hown, hle⟩
  refine ⟨hown, hfill, hlisted, hcovers, fun {b cells} hb => ?_⟩
  have hlen : cells.length = p.declaredCells := hb.length_eq
  have hfront : (Assignment.mk cells.toArray).front p.declaredCells = cells := by
    rw [← hlen, Assignment.front_mk]
  obtain ⟨-, -, value, hvalue, ⟨c, hca, hc⟩, hsame⟩ :=
    compute_declared (a := ⟨cells.toArray⟩) hlinear hlisted hformula hcompute hlen
      (hfront.symm ▸ hb)
  rw [hvalue, Except.ok.injEq]
  constructor
  · intro htrue
    refine ⟨c, isModel_ensure.mpr ⟨hc, ?_⟩, ?_⟩
    · rw [List.any_cons, hsame c hca hc, htrue, Bool.true_or]
    · have hextends : c.front cells.length = (Assignment.mk cells.toArray).front cells.length :=
        hca.front_eq
      rw [← hlen, hextends, Assignment.front_mk]
  · rintro ⟨d, hd, rfl⟩
    obtain ⟨hd, hholds⟩ := isModel_ensure.mp hd
    have hvars := (isModel_iff.mp hd).1
    rw [← hsame d (Assignment.extends_front (hvars ▸ hcovers)) hd]
    simpa using hholds

/-- A compilation that returns has allocated the declared cells first, and has asserted
what the formula computes on them. -/
theorem compile_ok (h : p.compile s = .ok literals s') :
    (∀ declaration ∈ p.shapes.entries, declaration.2.Fillable Literal) ∧
      Bindings.Listed p.shapes.entries literals.entries (literalsFrom 1 p.declaredCells) ∧
      ∃ s₁ s₂ holds, formula s₁ = ⟨p.declaredCells, #[]⟩ ∧
        p.formula.compute Clausal.literals literals s₁ = .ok holds s₂ ∧
        Session.ensure [holds] s₂ = .ok () s' := by
  obtain ⟨_, s₀, hclear, h⟩ := Run.bind_eq_ok.mp h
  cases hclear
  obtain ⟨declared, s₁, hallocate, h⟩ := Run.bind_eq_ok.mp h
  obtain ⟨holds, s₂, hcompute, h⟩ := Run.bind_eq_ok.mp h
  obtain ⟨_, s₃, hensure, h⟩ := Run.bind_eq_ok.mp h
  cases h
  obtain ⟨hfill, hlisted, hformula⟩ := Problem.allocate_ok hallocate
  rw [formula_clear] at hlisted hformula
  simp only [Nat.zero_add] at hlisted hformula
  exact ⟨hfill, hlisted, s₁, s₂, holds, hformula, hcompute, hensure⟩

theorem formula_of_ensure {l : Literal} (hown : owns (formula s).variables l)
    (h : Session.ensure [l] s = .ok () s') : formula s' = (formula s).ensure [l] := by
  obtain ⟨s₁, hensured, hformula⟩ := ensure_spec s [l] (by simpa using hown)
  rw [hensured] at h
  cases h
  exact hformula

theorem compile_spec (hlinear : p.formula.linear) (h : p.compile s = .ok literals s') :
    Compiled p literals (formula s') := by
  obtain ⟨hfill, hlisted, s₁, s₂, holds, hformula, hcompute, hensure⟩ := compile_ok h
  obtain ⟨hown, hcompiled⟩ :=
    compiled_of_compute hlinear hfill hlisted hformula hcompute
  rw [formula_of_ensure hown hensure]
  exact hcompiled

/-- Next to a compilation, the formula has a value on whatever fits the declarations. -/
theorem check_returns_of_compile (hlinear : p.formula.linear)
    (h : p.compile s = .ok literals s') {b : Solution} {cells : List Bool}
    (hb : Bindings.Listed p.shapes.entries b.entries cells) :
    ∃ value, p.check b = .ok value := by
  obtain ⟨-, hlisted, s₁, s₂, holds, hformula, hcompute, -⟩ := compile_ok h
  have hlen : cells.length = p.declaredCells := hb.length_eq
  have hfront : (Assignment.mk cells.toArray).front p.declaredCells = cells := by
    rw [← hlen, Assignment.front_mk]
  obtain ⟨-, -, value, hvalue, -⟩ :=
    compute_declared (a := ⟨cells.toArray⟩) hlinear hlisted hformula hcompute hlen
      (hfront.symm ▸ hb)
  exact ⟨value, hvalue⟩

/-- The declared cells determine the gates, so no two models have one front part. -/
theorem front_injective (hlinear : p.formula.linear) (h : p.compile s = .ok literals s')
    {a b : Assignment} (ha : (formula s').isModel a) (hb : (formula s').isModel b)
    (hfront : a.front p.declaredCells = b.front p.declaredCells) : a = b := by
  have hcovers := (compile_spec hlinear h).covers
  obtain ⟨hfill, hlisted, s₁, s₂, holds, hformula, hcompute, hensure⟩ := compile_ok h
  obtain ⟨hown, -⟩ := compiled_of_compute hlinear hfill hlisted hformula hcompute
  have hcount : ∀ {c : Assignment}, (formula s').isModel c → p.declaredCells ≤ c.variables :=
    fun hc => (isModel_iff.mp hc).1 ▸ hcovers
  let front : Assignment := ⟨(a.front p.declaredCells).toArray⟩
  have hvars : front.variables = p.declaredCells := a.length_front _
  have hsame := Assignment.front_mk (a.front p.declaredCells)
  rw [a.length_front] at hsame
  obtain ⟨solution, -, hsolution⟩ := decode_ok hfill hlisted (hcount ha)
  obtain ⟨hgrows, -⟩ :=
    compute_declared hlinear hlisted hformula hcompute hvars (hsame.symm ▸ hsolution)
  have hmodel : (formula s₁).isModel front := by
    rw [hformula]
    exact isModel_iff.mpr ⟨hvars, by simp⟩
  have hleft := Assignment.extends_front (hcount ha)
  have hright := Assignment.extends_front (hcount hb)
  rw [← hfront] at hright
  rw [formula_of_ensure hown hensure] at ha hb
  exact hgrows.unique hmodel hleft (isModel_ensure.mp ha).1 hright (isModel_ensure.mp hb).1

end

end TensorLogic
