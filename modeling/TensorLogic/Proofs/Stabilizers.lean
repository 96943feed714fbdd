import TensorLogic.Proofs.Comparisons
import TensorLogic.Proofs.PredicateDemands

/-!
# Operations that take maps to maps

`isStabilizer` feeds the arguments of an operation with maps, one contraction an argument,
and compares what comes out with every map. A tensor along the way is read as the graph of
a term in the labels of its axes (`Denotes`): the operation itself denotes its values at
the labels of its arguments, and a stage puts a map's value in the place of one label
(`Denotes.feed`). So after the last stage there is the composite, with the element that
all maps are applied to among its labels.

The comparison then holds for the maps that agree with the composite at every element
(`matching_iff`), and the count asks that there is exactly one. For distinct maps there is
never more than one, so the predicate says that composites of maps are maps
(`isStabilizer_iff`).
-/

namespace TensorLogic.Relation

variable {monoid op fed last r : Tensor Bool} {n m : Nat} {maps : Nat → Nat → Nat}
  {source target labels : String} {value arg elem map : Char} {extent : Char → Nat}

/-! ## Maps -/

/-- The value of the map `p` at `x`, as an operation on both. -/
def applied (maps : Nat → Nat → Nat) : Index → Nat
  | [x, p] => maps p x
  | _ => 0

/-- The slices of the tensor are the graphs of these maps. -/
def MapsOf (monoid : Tensor Bool) (n m : Nat) (maps : Nat → Nat → Nat) : Prop :=
  GraphOf monoid n [n, m] (applied maps)

instance : Decidable (MapsOf monoid n m maps) :=
  inferInstanceAs (Decidable (GraphOf ..))

namespace MapsOf

variable (h : MapsOf monoid n m maps) {p x : Nat}
include h

theorem shape_eq : monoid.shape = [n, n, m] :=
  GraphOf.shape_eq h

theorem value_lt (hp : p < m) (hx : x < n) : maps p x < n :=
  GraphOf.value_lt h (Shape.pair_mem_indices hx hp)

theorem holds_iff (hp : p < m) (hx : x < n) {v : Nat} (hv : v < n) :
    monoid.get [v, x, p] = .ok true ↔ v = maps p x :=
  GraphOf.holds_iff h (Shape.pair_mem_indices hx hp) hv

end MapsOf

/-! ## Terms in labels -/

/-- The tensor is the graph of a term in its labels, with the value at one of them. -/
structure Denotes (extent : Char → Nat) (value : Char) (t : Tensor Bool) (labels : String)
    (term : (Char → Nat) → Nat) : Prop where
  shape_eq : t.shape = labels.toList.map extent
  value_lt {ρ : Char → Nat} : Within extent labels.toList ρ → term ρ < extent value
  holds_iff {ρ : Char → Nat} : Within extent labels.toList ρ →
    ((t.named labels).cellAt ρ = .ok true ↔ ρ value = term ρ)

/-- The labels of a stage that puts the value of a map in the place of an argument. -/
structure Feeds (source target labels : String) (arg elem map : Char) : Prop where
  labels_eq : labels.toList = [arg, elem, map]
  kept : ∀ c ∈ source.toList, c = arg ∨ c ∈ target.toList
  arg_notMem : arg ∉ target.toList
  elem_mem : elem ∈ target.toList
  map_mem : map ∈ target.toList

instance : Decidable (Feeds source target labels arg elem map) :=
  -- Run through the labels of the source, and not through all characters there are.
  have := List.decidableBAll (fun c => c = arg ∨ c ∈ target.toList) source.toList
  decidable_of_iff (labels.toList = [arg, elem, map] ∧
      (∀ c ∈ source.toList, c = arg ∨ c ∈ target.toList) ∧ arg ∉ target.toList ∧
      elem ∈ target.toList ∧ map ∈ target.toList)
    ⟨fun ⟨hlabels, hkept, harg, helem, hmap⟩ => ⟨hlabels, hkept, harg, helem, hmap⟩,
      fun h => ⟨h.labels_eq, h.kept, h.arg_notMem, h.elem_mem, h.map_mem⟩⟩

/-- The assignment with the value of the map in the place of the argument. -/
def placed (maps : Nat → Nat → Nat) (arg elem map : Char) (ρ : Char → Nat) : Char → Nat :=
  Function.update ρ arg (maps (ρ map) (ρ elem))

section Monoid

variable (hmaps : MapsOf monoid n m maps) (hlabels : labels.toList = [arg, elem, map])
  (hextent : extent arg = n ∧ extent elem = n ∧ extent map = m)
include hlabels

theorem cellAt_monoid (π : Char → Nat) :
    (monoid.named labels).cellAt π = monoid.get [π arg, π elem, π map] := by
  show monoid.get (labels.toList.map π) = _
  rw [hlabels]
  rfl

include hextent

theorem within_monoid {π : Char → Nat} :
    Within extent (monoid.named labels).letters π ↔ π arg < n ∧ π elem < n ∧ π map < m := by
  obtain ⟨harg, helem, hmap⟩ := hextent
  show Within extent labels.toList π ↔ _
  simp [Within, hlabels, harg, helem, hmap]

include hmaps

theorem shape_monoid : monoid.shape = labels.toList.map extent := by
  obtain ⟨harg, helem, hmap⟩ := hextent
  rw [hmaps.shape_eq, hlabels, List.map_cons, List.map_cons, List.map_singleton, harg, helem,
    hmap]

theorem holds_monoid_iff {π : Char → Nat}
    (hπ : Within extent (monoid.named labels).letters π) :
    (monoid.named labels).cellAt π = .ok true ↔ π arg = maps (π map) (π elem) := by
  obtain ⟨harg, helem, hmap⟩ := (within_monoid hlabels hextent).mp hπ
  rw [cellAt_monoid hlabels]
  exact hmaps.holds_iff hmap helem harg

end Monoid

section Stage

variable (hmaps : MapsOf monoid n m maps) (hfeeds : Feeds source target labels arg elem map)
  (hextent : extent arg = n ∧ extent elem = n ∧ extent map = m) {ρ : Char → Nat}
include hfeeds

theorem Feeds.placed_eq {c : Char} (hc : c ∈ target.toList) :
    placed maps arg elem map ρ c = ρ c :=
  Function.update_of_ne (ne_of_mem_of_not_mem hc hfeeds.arg_notMem) _ _

include hmaps hextent

theorem Feeds.within_placed (hρ : Within extent target.toList ρ) :
    Within extent source.toList (placed maps arg elem map ρ) ∧
      Within extent (monoid.named labels).letters (placed maps arg elem map ρ) := by
  have helem : ρ elem < n := hextent.2.1 ▸ hρ elem hfeeds.elem_mem
  have hmap : ρ map < m := hextent.2.2 ▸ hρ map hfeeds.map_mem
  have hlt := hmaps.value_lt hmap helem
  refine ⟨fun c hc => ?_, ?_⟩
  · by_cases hcarg : c = arg
    · rw [hcarg, placed, Function.update_self, hextent.1]
      exact hlt
    · rw [placed, Function.update_of_ne hcarg]
      exact hρ c ((hfeeds.kept c hc).resolve_left hcarg)
  · rw [within_monoid hfeeds.labels_eq hextent, hfeeds.placed_eq hfeeds.elem_mem,
      hfeeds.placed_eq hfeeds.map_mem, placed, Function.update_self]
    exact ⟨hlt, helem, hmap⟩

/-- The map holds under one assignment only, the one with its value in place. -/
theorem Feeds.exists_iff (hρ : Within extent target.toList ρ) :
    (∃ π, Join.Extends target [fed.named source, monoid.named labels] extent ρ π ∧
        (fed.named source).cellAt π = .ok true ∧ (monoid.named labels).cellAt π = .ok true) ↔
      (fed.named source).cellAt (placed maps arg elem map ρ) = .ok true := by
  obtain ⟨hsource, hmonoid⟩ := hfeeds.within_placed hmaps hextent hρ
  constructor
  · rintro ⟨π, ⟨hagree, hbelow⟩, hfedCell, hmapCell⟩
    have hbelow := hbelow _ (List.mem_cons_of_mem _ (List.mem_singleton_self _))
    have hvalue := (holds_monoid_iff hmaps hfeeds.labels_eq hextent hbelow).mp hmapCell
    rw [hagree map hfeeds.map_mem, hagree elem hfeeds.elem_mem] at hvalue
    rw [← hfedCell]
    refine Labelled.cellAt_congr fun c hc => ?_
    by_cases hcarg : c = arg
    · rw [hcarg, placed, Function.update_self, hvalue]
    · rw [placed, Function.update_of_ne hcarg]
      exact (hagree c ((hfeeds.kept c hc).resolve_left hcarg)).symm
  · intro hfedCell
    refine ⟨placed maps arg elem map ρ, ⟨fun c hc => hfeeds.placed_eq hc, ?_⟩, hfedCell, ?_⟩
    · exact List.forall_mem_cons.mpr ⟨hsource, List.forall_mem_singleton.mpr hmonoid⟩
    · rw [holds_monoid_iff hmaps hfeeds.labels_eq hextent hmonoid,
        hfeeds.placed_eq hfeeds.elem_mem, hfeeds.placed_eq hfeeds.map_mem, placed,
        Function.update_self]

/-- A stage substitutes the value of a map for the argument. -/
theorem Denotes.feed {term : (Char → Nat) → Nat} (hfed : Denotes extent value fed source term)
    (hne : value ≠ arg)
    (h : (truthValues.reduce .any target .and [fed.named source, monoid.named labels]).value =
      .ok r) :
    Denotes extent value r target fun ρ => term (placed maps arg elem map ρ) := by
  have hsized : Join.Sized extent [fed.named source, monoid.named labels] :=
    List.forall_mem_cons.mpr ⟨hfed.shape_eq,
      List.forall_mem_singleton.mpr (shape_monoid hmaps hfeeds.labels_eq hextent)⟩
  refine ⟨(Join.reduce_sized (reduce_lifted h) hsized).1,
    fun hρ => hfed.value_lt (hfeeds.within_placed hmaps hextent hρ).1, fun {ρ} hρ => ?_⟩
  obtain ⟨b, hget, hb⟩ := Quantifies.any.reduce_iff h hsized hρ
  have hcell : (r.named target).cellAt ρ = .ok b := hget
  have hsource := hfed.holds_iff (hfeeds.within_placed hmaps hextent hρ).1
  rw [← hfeeds.exists_iff hmaps hextent hρ] at hsource
  rw [hcell, Except.ok.injEq, hb]
  simp only [List.mem_cons, List.not_mem_nil, or_false, forall_eq_or_imp, forall_eq]
  rw [hsource, placed, Function.update_of_ne hne]

end Stage

/-- Ahead of the first stage there is the operation itself. -/
theorem GraphOf.denotes {rest : Shape} {f : Index → Nat} (h : GraphOf op n rest f)
    (args : List Char) (hsource : source.toList = value :: args) (hvalue : extent value = n)
    (hargs : args.map extent = rest) : Denotes extent value op source fun ρ => f (args.map ρ) := by
  have hindex {ρ : Char → Nat} (hρ : Within extent source.toList ρ) :
      ρ value < n ∧ args.map ρ ∈ rest.indices := by
    rw [hsource, Within, List.forall_mem_cons, hvalue] at hρ
    exact ⟨hρ.1, hargs ▸ map_mem_indices.mpr hρ.2⟩
  refine ⟨?_, fun hρ => ?_, fun {ρ} hρ => ?_⟩
  · rw [h.shape_eq, hsource, List.map_cons, hvalue, hargs]
  · rw [hvalue]
    exact h.value_lt (hindex hρ).2
  · have hcell : (op.named source).cellAt ρ = op.get (ρ value :: args.map ρ) := by
      show op.get (source.toList.map ρ) = _
      rw [hsource, List.map_cons]
    rw [hcell]
    exact h.holds_iff (hindex hρ).2 (hindex hρ).1

/-! ## The comparison with each map -/

/-- The labels of a comparison with a map at each element. -/
structure Meets (source target labels : String) (chosen : List Char) (value elem map : Char) :
    Prop where
  labels_eq : labels.toList = [value, elem, map]
  target_eq : target.toList = chosen ++ [map]
  nodup : target.toList.Nodup
  kept : ∀ c ∈ source.toList, c = value ∨ c = elem ∨ c ∈ target.toList
  value_notMem : value ∉ target.toList
  elem_notMem : elem ∉ target.toList
  value_ne : value ≠ elem

instance {chosen : List Char} : Decidable (Meets source target labels chosen value elem map) :=
  have := List.decidableBAll (fun c => c = value ∨ c = elem ∨ c ∈ target.toList) source.toList
  decidable_of_iff (labels.toList = [value, elem, map] ∧ target.toList = chosen ++ [map] ∧
      target.toList.Nodup ∧ (∀ c ∈ source.toList, c = value ∨ c = elem ∨ c ∈ target.toList) ∧
      value ∉ target.toList ∧ elem ∉ target.toList ∧ value ≠ elem)
    ⟨fun ⟨hlabels, htarget, hnodup, hkept, hvalue, helem, hne⟩ =>
        ⟨hlabels, htarget, hnodup, hkept, hvalue, helem, hne⟩,
      fun h => ⟨h.labels_eq, h.target_eq, h.nodup, h.kept, h.value_notMem, h.elem_notMem,
        h.value_ne⟩⟩

/-- An assignment with other coordinates for the value and the element. -/
theorem exists_reassigned {kept : List Char} (hvalue : value ∉ kept) (helem : elem ∉ kept)
    (hne : value ≠ elem) (ρ : Char → Nat) (v x : Nat) :
    ∃ π : Char → Nat, π value = v ∧ π elem = x ∧ ∀ c ∈ kept, π c = ρ c := by
  refine ⟨Function.update (Function.update ρ elem x) value v, Function.update_self .., ?_,
    fun c hc => ?_⟩
  · rw [Function.update_of_ne hne.symm, Function.update_self]
  · rw [Function.update_of_ne (ne_of_mem_of_not_mem hc hvalue),
      Function.update_of_ne (ne_of_mem_of_not_mem hc helem)]

/-- The tensor tells which choices of maps are composed to which map. -/
structure Matches (t : Tensor Bool) (n m : Nat) (maps : Nat → Nat → Nat) (choices : Shape)
    (composed : Index → Nat → Nat) : Prop where
  inBounds : t.InBounds
  shape_eq : t.shape = choices ++ [m]
  holds_iff {index : Index} {k : Nat} : index ∈ choices.indices → k < m →
    (t.get (index ++ [k]) = .ok true ↔ ∀ x < n, maps k x = composed index x)

section Comparison

variable {term : (Char → Nat) → Nat} {chosen : List Char} {composed : Index → Nat → Nat}
  (hmaps : MapsOf monoid n m maps) (hlast : Denotes extent value last source term)
  (hmeets : Meets source target labels chosen value elem map)
  (hextent : extent value = n ∧ extent elem = n ∧ extent map = m)
  (hterm : ∀ π, term π = composed (chosen.map π) (π elem))
  (h : (truthValues.reduce .all target .equ [last.named source, monoid.named labels]).value =
    .ok r)
include hmaps hlast hmeets hextent hterm h

/-- The comparison holds for a map that takes the value of the term at every element. -/
theorem Denotes.matching_iff {ρ : Char → Nat} (hρ : Within extent target.toList ρ) :
    r.get (target.toList.map ρ) = .ok true ↔
      ∀ x < n, maps (ρ map) x = composed (chosen.map ρ) x := by
  obtain ⟨hlabels, htarget, -, hkeep, hvalue, helem, hne⟩ := hmeets
  have hmap : map ∈ target.toList := htarget ▸ List.mem_append_right _ List.mem_cons_self
  have hρmap : ρ map < m := hextent.2.2 ▸ hρ map hmap
  have hchosen {π : Char → Nat} (hπ : ∀ c ∈ target.toList, π c = ρ c) :
      term π = composed (chosen.map ρ) (π elem) := by
    rw [hterm, List.map_congr_left fun c hc => hπ c (htarget ▸ List.mem_append_left _ hc)]
  have hsized : Join.Sized extent [last.named source, monoid.named labels] :=
    List.forall_mem_cons.mpr ⟨hlast.shape_eq,
      List.forall_mem_singleton.mpr (shape_monoid hmaps hlabels hextent)⟩
  obtain ⟨b, hget, hb⟩ := Compares.equ.reduce_iff h hsized hρ
  rw [hget, Except.ok.injEq, hb]
  constructor
  · -- compared where the value is the map's own one
    intro hequal x hx
    have hlt := hmaps.value_lt hρmap hx
    obtain ⟨π, hπvalue, hπelem, hπ⟩ :=
      exists_reassigned hvalue helem hne ρ (maps (ρ map) x) x
    have hsource : Within extent source.toList π := fun c hc => by
      rcases hkeep c hc with rfl | rfl | hc
      · rwa [hπvalue, hextent.1]
      · rwa [hπelem, hextent.2.1]
      · exact hπ c hc ▸ hρ c hc
    have hmonoid : Within extent (monoid.named labels).letters π := by
      rw [within_monoid hlabels hextent, hπvalue, hπelem, hπ map hmap]
      exact ⟨hlt, hx, hρmap⟩
    have hcells := hequal π ⟨hπ, List.forall_mem_cons.mpr
      ⟨hsource, List.forall_mem_singleton.mpr hmonoid⟩⟩
    rw [hlast.holds_iff hsource, holds_monoid_iff hmaps hlabels hextent hmonoid, hchosen hπ,
      hπvalue, hπelem, hπ map hmap] at hcells
    exact hcells.mpr rfl
  · intro hequal π hπ
    have hsource : Within extent source.toList π := hπ.within _ List.mem_cons_self
    have hmonoid := hπ.within _ (List.mem_cons_of_mem _ (List.mem_singleton_self _))
    have hx := ((within_monoid hlabels hextent).mp hmonoid).2.1
    rw [hlast.holds_iff hsource, holds_monoid_iff hmaps hlabels hextent hmonoid,
      hchosen hπ.output_eq, hπ.output_eq map hmap, hequal _ hx]

theorem Denotes.matches {choices : Shape} (hchoices : chosen.map extent = choices) :
    Matches r n m maps choices composed := by
  have htarget := hmeets.target_eq
  have hsized : Join.Sized extent [last.named source, monoid.named labels] :=
    List.forall_mem_cons.mpr ⟨hlast.shape_eq,
      List.forall_mem_singleton.mpr (shape_monoid hmaps hmeets.labels_eq hextent)⟩
  have hshape : target.toList.map extent = choices ++ [m] := by
    rw [htarget, List.map_append, hchoices, List.map_singleton, hextent.2.2]
  refine ⟨Join.inBounds_of_reduce (reduce_lifted h),
    (Join.reduce_sized (reduce_lifted h) hsized).1.trans hshape, fun {index k} hindex hk => ?_⟩
  have hjoint : index ++ [k] ∈ Shape.indices (target.toList.map extent) :=
    hshape ▸ Shape.mem_indices_concat.mpr ⟨index, hindex, k, hk, rfl⟩
  obtain ⟨ρ, hρ⟩ := exists_assignment hmeets.nodup
    ((Shape.length_of_mem_indices hjoint).trans (List.length_map _))
  rw [← hρ, map_mem_indices] at hjoint
  have hsplit := hρ
  rw [htarget, List.map_append] at hsplit
  obtain ⟨hfront, hback⟩ := List.append_inj' hsplit rfl
  rw [← hρ, hlast.matching_iff hmaps hmeets hextent hterm h hjoint, hfront,
    (List.cons.inj hback).1]

end Comparison

/-- Elements are labelled by the letters apart from those of the maps. -/
def feedExtent (n m : Nat) : Char → Nat
  | 'p' | 'q' | 'r' | 's' => m
  | _ => n

variable {f : Index → Nat}

theorem composite_binary (hmaps : MapsOf monoid n m maps) (hop : GraphOf op n [n, n] f)
    (h : (composite truthValues op monoid).value = .ok r) :
    Matches r n m maps [m, m] fun index x => f (index.reverse.map fun p => maps p x) := by
  have hrank : op.rank = 3 := by rw [Tensor.rank, hop.shape_eq]; rfl
  simp only [composite, hrank] at h
  obtain ⟨t₁, s₁, h₁, h⟩ := Run.bind_eq_ok.mp (Run.value_eq_ok.mp h)
  obtain ⟨t₂, s₂, h₂, h₃⟩ := Run.bind_eq_ok.mp h
  have hop : Denotes (feedExtent n m) 'x' op "xyz" _ := hop.denotes ['y', 'z'] rfl rfl rfl
  have hfirst := hop.feed hmaps (by decide : Feeds _ _ _ 'z' 't' 'p') ⟨rfl, rfl, rfl⟩
    (by decide) (Run.value_eq_ok.mpr h₁)
  have hsecond := hfirst.feed hmaps (by decide : Feeds _ _ _ 'y' 't' 'q') ⟨rfl, rfl, rfl⟩
    (by decide) (Run.value_eq_ok.mpr h₂)
  exact hsecond.matches hmaps (by decide : Meets _ _ _ ['p', 'q'] 'x' 't' 'r') ⟨rfl, rfl, rfl⟩
    (fun π => rfl) (Run.value_eq_ok.mpr h₃) rfl

theorem composite_ternary (hmaps : MapsOf monoid n m maps) (hop : GraphOf op n [n, n, n] f)
    (h : (composite truthValues op monoid).value = .ok r) :
    Matches r n m maps [m, m, m] fun index x => f (index.map fun p => maps p x) := by
  have hrank : op.rank = 4 := by rw [Tensor.rank, hop.shape_eq]; rfl
  simp only [composite, hrank] at h
  obtain ⟨t₁, s₁, h₁, h⟩ := Run.bind_eq_ok.mp (Run.value_eq_ok.mp h)
  obtain ⟨t₂, s₂, h₂, h⟩ := Run.bind_eq_ok.mp h
  obtain ⟨t₃, s₃, h₃, h₄⟩ := Run.bind_eq_ok.mp h
  have hop : Denotes (feedExtent n m) 'a' op "abcd" _ :=
    hop.denotes ['b', 'c', 'd'] rfl rfl rfl
  have hfirst := hop.feed hmaps (by decide : Feeds _ _ _ 'b' 't' 'p') ⟨rfl, rfl, rfl⟩
    (by decide) (Run.value_eq_ok.mpr h₁)
  have hsecond := hfirst.feed hmaps (by decide : Feeds _ _ _ 'c' 't' 'q') ⟨rfl, rfl, rfl⟩
    (by decide) (Run.value_eq_ok.mpr h₂)
  have hthird := hsecond.feed hmaps (by decide : Feeds _ _ _ 'd' 't' 'r') ⟨rfl, rfl, rfl⟩
    (by decide) (Run.value_eq_ok.mpr h₃)
  exact hthird.matches hmaps (by decide : Meets _ _ _ ['p', 'q', 'r'] 'a' 't' 's')
    ⟨rfl, rfl, rfl⟩ (fun π => rfl) (Run.value_eq_ok.mpr h₄) rfl

/-! ## The count -/

/-- Folding the last axis by `one` tells where exactly one cell holds. -/
theorem foldOne_iff {t : Tensor Bool} (ht : t.InBounds) {front : Shape}
    (hshape : t.shape = front ++ [m]) (h : (truthValues.fold .one 1 t).value = .ok r) :
    r.shape = front ∧ r.InBounds ∧ ∀ index ∈ front.indices,
      (r.get index = .ok true ↔ ∃! k, k < m ∧ t.get (index ++ [k]) = .ok true) := by
  have hrank : t.rank - 1 = front.length := by rw [Tensor.rank, hshape]; simp
  have houter : t.outerShape 1 = front := by
    rw [Tensor.outerShape, hrank, hshape, List.take_left]
  have hinner : t.innerShape 1 = [m] := by
    rw [Tensor.innerShape, hrank, hshape, List.drop_left]
  obtain ⟨-, hfill⟩ := Tensor.fold_ok ht (Run.value_eq_ok.mp h)
  obtain ⟨hr, hbounds, hget⟩ := Tensor.fill_spec hfill
  rw [houter] at hr hget
  refine ⟨hr, hbounds, fun index hindex => ?_⟩
  obtain ⟨b, hb, s, s', hcell⟩ := hget index hindex
  obtain ⟨block, hblock, haggregate⟩ := Run.lift_bind_eq_ok.mp hcell
  have hone : (block.count true == 1) = b :=
    Except.ok.inj (Run.value_eq_ok.mpr haggregate)
  rw [Tensor.blockCells, hinner] at hblock
  rw [hb, Except.ok.injEq, ← hone, beq_iff_eq,
    count_true_eq_one (Shape.nodup_indices _) hblock, existsUnique_coordinate]

/-- No two of the maps agree at all elements. -/
def Distinct (maps : Nat → Nat → Nat) (n m : Nat) : Prop :=
  ∀ p < m, ∀ q < m, (∀ x < n, maps p x = maps q x) → p = q

instance : Decidable (Distinct maps n m) :=
  inferInstanceAs (Decidable (∀ p < m, ∀ q < m, _ → p = q))

/-- Among distinct maps a composite is counted once if it is a map, and not at all else. -/
theorem isStabilizer_of_matches {choices : Shape} {composed : Index → Nat → Nat}
    (hdistinct : Distinct maps n m)
    (hmatches : ∀ r, (composite truthValues op monoid).value = .ok r →
      Matches r n m maps choices composed)
    {b : Bool} (h : (isStabilizer truthValues op monoid).value = .ok b) :
    b = true ↔ ∀ index ∈ choices.indices, ∃ k < m, ∀ x < n, maps k x = composed index x := by
  obtain ⟨_, -, h⟩ := Run.lift_bind_eq_ok.mp (Run.value_eq_ok.mp h)
  obtain ⟨_, -, h⟩ := Run.lift_bind_eq_ok.mp h
  obtain ⟨matching, s₁, hmatching, h⟩ := Run.bind_eq_ok.mp h
  obtain ⟨member, s₂, hmember, h⟩ := Run.bind_eq_ok.mp h
  have hmatching := hmatches matching (Run.value_eq_ok.mpr hmatching)
  obtain ⟨hshape, hbounds, hget⟩ :=
    foldOne_iff hmatching.inBounds hmatching.shape_eq (Run.value_eq_ok.mpr hmember)
  rw [foldedAll_iff hbounds rfl (Run.value_eq_ok.mpr h), hshape]
  refine forall₂_congr fun index hindex => ?_
  rw [hget index hindex]
  constructor
  · rintro ⟨k, ⟨hk, hcell⟩, -⟩
    exact ⟨k, hk, (hmatching.holds_iff hindex hk).mp hcell⟩
  · rintro ⟨k, hk, hequal⟩
    refine ⟨k, ⟨hk, (hmatching.holds_iff hindex hk).mpr hequal⟩, ?_⟩
    rintro j ⟨hj, hcell⟩
    have hequal' := (hmatching.holds_iff hindex hj).mp hcell
    exact hdistinct j hj k hk fun x hx => (hequal' x hx).trans (hequal x hx).symm

/-- Over distinct maps, an operation that passes makes maps of maps: fed with any two of
them, the second one first, or with any three, it is one of them again. The operation is
the graph of a function, as `isFunction` checks it (`isFunction_iff_graphOf`). -/
theorem isStabilizer_iff (hmaps : MapsOf monoid n m maps) (hdistinct : Distinct maps n m) :
    (∀ op f, GraphOf op n [n, n] f →
      ∀ b, (isStabilizer truthValues op monoid).value = .ok b →
        (b = true ↔ ∀ p < m, ∀ q < m, ∃ k < m, ∀ x < n,
          maps k x = f [maps q x, maps p x])) ∧
    ∀ op f, GraphOf op n [n, n, n] f →
      ∀ b, (isStabilizer truthValues op monoid).value = .ok b →
        (b = true ↔ ∀ p < m, ∀ q < m, ∀ r < m, ∃ k < m, ∀ x < n,
          maps k x = f [maps p x, maps q x, maps r x]) := by
  constructor
  · intro op f hop b h
    rw [isStabilizer_of_matches hdistinct (fun r hr => composite_binary hmaps hop hr) h]
    simp only [Shape.forall_mem_indices_cons, Shape.forall_mem_indices_nil, List.reverse_cons,
      List.reverse_nil, List.nil_append, List.cons_append, List.map_cons, List.map_nil]
  · intro op f hop b h
    rw [isStabilizer_of_matches hdistinct (fun r hr => composite_ternary hmaps hop hr) h]
    simp only [Shape.forall_mem_indices_cons, Shape.forall_mem_indices_nil, List.map_cons,
      List.map_nil]

/-- The identity and the constant map to 0, on two elements. -/
def identityAndZero : Tensor Bool :=
  { shape := [2, 2, 2], strides := [4, 2, 1], offset := 0,
    buffer := #[true, true, false, true, false, false, true, false] }

/-- The identity alone, as a slice of the same cells. -/
def identityAlone : Tensor Bool :=
  { identityAndZero with shape := [2, 2, 1] }

/-- The minimum of two elements, and the one of three, as graphs. -/
def minimum : Tensor Bool :=
  { shape := [2, 2, 2], strides := [4, 2, 1], offset := 0,
    buffer := #[true, true, true, false, false, false, false, true] }

def minimumOfThree : Tensor Bool :=
  { shape := [2, 2, 2, 2], strides := [8, 4, 2, 1], offset := 0,
    buffer := #[true, true, true, true, true, true, true, false,
                false, false, false, false, false, false, false, true] }

theorem isStabilizer_iff_minimum :
    (isStabilizer truthValues minimum identityAndZero).value = .ok true ∧
    (∀ p < 2, ∀ q < 2, ∃ k < 2, ∀ x < 2,
      (if k = 0 then x else 0) = [if q = 0 then x else 0, if p = 0 then x else 0].foldl min 1) ∧
    (isStabilizer truthValues minimumOfThree identityAlone).value = .ok true ∧
    ∀ p < 1, ∀ q < 1, ∀ r < 1, ∃ k < 1, ∀ x < 2, x = [x, x, x].foldl min 1 := by
  have hboth : MapsOf identityAndZero 2 2 fun p x => if p = 0 then x else 0 := by decide
  have hone : MapsOf identityAlone 2 1 fun _ x => x := by decide
  have hbinary : GraphOf minimum 2 [2, 2] (List.foldl min 1) := by decide
  have hternary : GraphOf minimumOfThree 2 [2, 2, 2] (List.foldl min 1) := by decide
  have htwo : (isStabilizer truthValues minimum identityAndZero).value = .ok true := by
    decide +kernel
  have hthree : (isStabilizer truthValues minimumOfThree identityAlone).value = .ok true := by
    decide +kernel
  exact ⟨htwo, ((isStabilizer_iff hboth (by decide)).1 _ _ hbinary true htwo).mp rfl,
    hthree, ((isStabilizer_iff hone (by decide)).2 _ _ hternary true hthree).mp rfl⟩

end TensorLogic.Relation
