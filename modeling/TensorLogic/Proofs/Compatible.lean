import TensorLogic.Proofs.PredicateDemands
import TensorLogic.Proofs.Staging

/-!
# Relations that maps keep

`isCompatible` replaces the coordinates of a tuple one after the other, by a contraction
each, and every stage but the last carries the label of the maps along. Quantifiers may be
pushed inwards (`Quantifies.exists_staged_iff`), so all stages together are one
contraction: its operands are the relation and, for each coordinate, the maps, with a
label for the value, one for the argument, and one label for the map that all of them
share (`imageOperands`). An assignment to these labels is a map and a tuple of the
relation, whatever the arity is (`exists_image_iff`).

So the image holds the tuples that a single map makes of a tuple of the relation, and the
predicate says that all of them are in the relation (`isCompatible_iff`). That the slices
are maps is used nowhere.
-/

namespace TensorLogic.Relation

variable {rel monoid reached : Tensor Bool} {n m : Nat} {values args : List Char}
  {extent ρ : Char → Nat}

/-- The relation and, for each coordinate, the maps from arguments to values. -/
def imageOperands (rel monoid : Tensor Bool) (values args : List Char) : List (Labelled Bool) :=
  rel.named (String.ofList args) :: (values.zip args).map fun (value, arg) =>
    monoid.named (String.ofList [value, arg, 'p'])

theorem forall_mem_imageOperands {P : Labelled Bool → Prop} :
    (∀ operand ∈ imageOperands rel monoid values args, P operand) ↔
      P (rel.named (String.ofList args)) ∧
        ∀ pair ∈ values.zip args, P (monoid.named (String.ofList [pair.1, pair.2, 'p'])) := by
  rw [imageOperands, List.forall_mem_cons, List.forall_mem_map]

/-- The operands hold under an assignment if the tuple of the arguments is in the relation
and the map takes each of them to its value. -/
theorem holds_imageOperands_iff (hlen : values.length = args.length) (π : Char → Nat) :
    (∀ operand ∈ imageOperands rel monoid values args, operand.cellAt π = .ok true) ↔
      rel.get (args.map π) = .ok true ∧
        List.Forall₂ (fun u x => monoid.get [u, x, π 'p'] = .ok true)
          (values.map π) (args.map π) := by
  rw [forall_mem_imageOperands, List.forall₂_map_left_iff, List.forall₂_map_right_iff,
    List.forall₂_iff_zip]
  simp only [cellAt_named]
  exact and_congr_right fun _ => ⟨fun h => ⟨hlen, fun hpair => h _ hpair⟩,
    fun h pair hpair => h.2 hpair⟩

/-- The tuples that one of the maps makes of a tuple of the relation. -/
def Reaches (rel monoid : Tensor Bool) (m : Nat) (u : Index) : Prop :=
  ∃ p < m, ∃ x ∈ rel.shape.indices, rel.get x = .ok true ∧
    List.Forall₂ (fun u x => monoid.get [u, x, p] = .ok true) u x

/-- An assignment to the labels of the image is a map and a tuple of the relation. -/
theorem exists_image_iff (hnodup : (values ++ args ++ ['p']).Nodup) (hne : values ≠ [])
    (hlen : values.length = args.length)
    (hsized : Join.Sized extent (imageOperands rel monoid values args))
    (hρ : Within extent values ρ) :
    (∃ π, Join.Extends (String.ofList values) (imageOperands rel monoid values args) extent ρ π ∧
        ∀ operand ∈ imageOperands rel monoid values args, operand.cellAt π = .ok true) ↔
      Reaches rel monoid (extent 'p') (values.map ρ) := by
  rw [Reaches]
  have hrel : rel.shape = args.map extent := by
    have hletters := (forall_mem_imageOperands.mp hsized).1
    rwa [letters_named] at hletters
  constructor
  · rintro ⟨π, ⟨houtput, hwithin⟩, hcells⟩
    rw [String.toList_ofList] at houtput
    rw [forall_mem_imageOperands] at hwithin
    simp only [letters_named] at hwithin
    obtain ⟨htrue, hmaps⟩ := (holds_imageOperands_iff hlen π).mp hcells
    have hvalues : values.map ρ = values.map π :=
      List.map_congr_left fun c hc => (houtput c hc).symm
    obtain ⟨value, values', rfl⟩ := List.exists_cons_of_ne_nil hne
    obtain ⟨arg, args', rfl⟩ := List.exists_cons_of_length_eq_add_one hlen.symm
    have hp := hwithin.2 (value, arg) (by simp) 'p' (by simp)
    exact ⟨π 'p', hp, _, hrel ▸ map_mem_indices.mpr hwithin.1, htrue, hvalues ▸ hmaps⟩
  · rintro ⟨p, hp, x, hx, htrue, hmaps⟩
    have hxlen : x.length = args.length := by
      rw [Shape.length_of_mem_indices hx, hrel]
      exact List.length_map _
    obtain ⟨π, hπ⟩ := exists_assignment hnodup
      (show (values.map ρ ++ x ++ [p]).length = _ by simp [hxlen])
    simp only [List.map_append, List.map_cons, List.map_nil] at hπ
    obtain ⟨hfront, hπp⟩ := List.append_inj hπ (by simp [hxlen])
    obtain ⟨hvalues, rfl⟩ := List.append_inj hfront (by simp)
    obtain rfl : π 'p' = p := (List.cons.inj hπp).1
    have hlabels : Within extent values π ∧ Within extent args π := by
      rw [hrel, map_mem_indices] at hx
      exact ⟨fun c hc => List.map_inj_left.mp hvalues c hc ▸ hρ c hc, hx⟩
    refine ⟨π, ⟨fun c hc => ?_, forall_mem_imageOperands.mpr ⟨?_, fun pair hpair => ?_⟩⟩,
      (holds_imageOperands_iff hlen π).mpr ⟨htrue, hvalues ▸ hmaps⟩⟩
    · rw [String.toList_ofList] at hc
      exact List.map_inj_left.mp hvalues c hc
    · rw [letters_named]
      exact hlabels.2
    · obtain ⟨hvalue, harg⟩ := List.of_mem_zip hpair
      rw [letters_named]
      simp [Within, hlabels.1 _ hvalue, hlabels.2 _ harg, hp]

theorem sized_imageOperands (hrel : rel.shape = List.replicate args.length n)
    (hmonoid : monoid.shape = [n, n, m]) (hn : ∀ c ∈ values ++ args, extent c = n)
    (hm : extent 'p' = m) : Join.Sized extent (imageOperands rel monoid values args) := by
  rw [List.forall_mem_append] at hn
  refine forall_mem_imageOperands.mpr ⟨?_, fun pair hpair => ?_⟩
  · rw [letters_named, List.map_congr_left hn.2, List.map_const']
    exact hrel
  · obtain ⟨hvalue, harg⟩ := List.of_mem_zip hpair
    rw [letters_named, List.map_cons, List.map_cons, List.map_cons, hn.1 _ hvalue, hn.2 _ harg, hm]
    exact hmonoid

/-- A contraction that comes down to the one of the image reaches its tuples. -/
theorem reached_iff {last : List (Labelled Bool)} (hnodup : (values ++ args ++ ['p']).Nodup)
    (hne : values ≠ []) (hlen : values.length = args.length)
    (h : (truthValues.reduce .any (String.ofList values) .and last).value = .ok reached)
    (hlast : Join.Sized extent last)
    (hsized : Join.Sized extent (imageOperands rel monoid values args))
    (hsame : ∀ ρ,
      (∃ π, Join.Extends (String.ofList values) last extent ρ π ∧
        ∀ operand ∈ last, operand.cellAt π = .ok true) ↔
      ∃ π, Join.Extends (String.ofList values) (imageOperands rel monoid values args) extent ρ π ∧
        ∀ operand ∈ imageOperands rel monoid values args, operand.cellAt π = .ok true) :
    reached.shape = values.map extent ∧ ∀ u ∈ reached.shape.indices,
      ∃ b, reached.get u = .ok b ∧ (b = true ↔ Reaches rel monoid (extent 'p') u) := by
  have hshape := (Join.reduce_sized (reduce_lifted h) hlast).1
  rw [String.toList_ofList] at hshape
  refine ⟨hshape, fun u hu => ?_⟩
  rw [hshape] at hu
  have hvalues : values.Nodup := (List.nodup_append.mp (List.nodup_append.mp hnodup).1).1
  obtain ⟨ρ, rfl⟩ := exists_assignment hvalues
    ((Shape.length_of_mem_indices hu).trans (List.length_map _))
  rw [map_mem_indices] at hu
  have hwithin : Within extent (String.ofList values).toList ρ := by rwa [String.toList_ofList]
  obtain ⟨b, hget, hb⟩ := Quantifies.any.reduce_iff h hlast hwithin
  rw [String.toList_ofList] at hget
  exact ⟨b, hget, hb.trans ((hsame ρ).trans (exists_image_iff hnodup hne hlen hsized hu))⟩

/-- What the labels alone say about a first stage. -/
theorem keeps_of_labels {mid output : String} {first behind : List (Labelled Bool)}
    (firstLabels behindLabels : List String) (hfirst : first.map (·.labels) = firstLabels)
    (hbehind : behind.map (·.labels) = behindLabels)
    (h : ∀ c ∈ firstLabels.flatMap String.toList,
      c ∈ output.toList ∨ c ∈ behindLabels.flatMap String.toList → c ∈ mid.toList) :
    Keeps mid output first behind := by
  subst hfirst hbehind
  intro operand hoperand c hc hasked
  refine h c ?_ ?_
  · exact List.mem_flatMap.mpr ⟨operand.labels, List.mem_map_of_mem hoperand, hc⟩
  · refine hasked.imp_right fun ⟨other, hother, hletter⟩ => ?_
    exact List.mem_flatMap.mpr ⟨other.labels, List.mem_map_of_mem hother, hletter⟩

/-! ## The stages -/

theorem sized_stage {agg : Aggregate} {op : Connective} {mid : String}
    {first behind : List (Labelled Bool)} {t : Tensor Bool}
    (hsized : Join.Sized extent (first ++ behind))
    (h : (truthValues.reduce agg mid op first).value = .ok t) :
    Join.Sized extent (t.named mid :: behind) := by
  rw [Join.Sized, List.forall_mem_append] at hsized
  exact List.forall_mem_cons.mpr ⟨(Join.reduce_sized (reduce_lifted h) hsized.1).1, hsized.2⟩

theorem image_spec {r : Nat} (hleast : 1 ≤ r) (hmost : r ≤ 3)
    (hrel : rel.shape = List.replicate r n) (hmonoid : monoid.shape = [n, n, m])
    (h : (image truthValues rel monoid).value = .ok reached) :
    reached.shape = List.replicate r n ∧ ∀ u ∈ reached.shape.indices,
      ∃ b, reached.get u = .ok b ∧ (b = true ↔ Reaches rel monoid m u) := by
  have hrank : rel.rank = r := by rw [Tensor.rank, hrel, List.length_replicate]
  have hrun := Run.value_eq_ok.mp h
  rw [image, hrank] at hrun
  obtain rfl | rfl | rfl : r = 1 ∨ r = 2 ∨ r = 3 := by omega
  · have hsized : Join.Sized (letterExtent n m) (imageOperands rel monoid ['y'] ['x']) :=
      sized_imageOperands hrel hmonoid (by simp [letterExtent]) rfl
    have hlabels : (['y'] ++ ['x'] ++ ['p']).Nodup := by decide
    exact reached_iff hlabels (by decide) rfl (Run.value_eq_ok.mpr hrun) hsized hsized
      fun ρ => Iff.rfl
  · obtain ⟨first, s, hfirst, hlast⟩ := Run.bind_eq_ok.mp hrun
    have hsized : Join.Sized (letterExtent n m)
        (imageOperands rel monoid ['u', 'v'] ['x', 'y']) :=
      sized_imageOperands hrel hmonoid (by simp [letterExtent]) rfl
    have hkeeps : Keeps "uyp" "uv" [rel.named "xy", monoid.named "uxp"] [monoid.named "vyp"] :=
      keeps_of_labels ["xy", "uxp"] ["vyp"] rfl rfl (by simp)
    have hstage := Run.value_eq_ok.mpr hfirst
    have hlabels : (['u', 'v'] ++ ['x', 'y'] ++ ['p']).Nodup := by decide
    exact reached_iff hlabels (by decide) rfl (Run.value_eq_ok.mpr hlast)
      (sized_stage hsized hstage) hsized
      fun ρ => Quantifies.any.exists_staged_iff hkeeps hsized hstage
  · obtain ⟨first, s, hfirst, hrun⟩ := Run.bind_eq_ok.mp hrun
    obtain ⟨second, s', hsecond, hlast⟩ := Run.bind_eq_ok.mp hrun
    have hsized : Join.Sized (letterExtent n m)
        (imageOperands rel monoid ['u', 'v', 'w'] ['x', 'y', 'z']) :=
      sized_imageOperands hrel hmonoid (by simp [letterExtent]) rfl
    have hkeeps : Keeps "uyzp" "uvw" [rel.named "xyz", monoid.named "uxp"]
        [monoid.named "vyp", monoid.named "wzp"] :=
      keeps_of_labels ["xyz", "uxp"] ["vyp", "wzp"] rfl rfl (by simp)
    have hkeeps' : Keeps "uvzp" "uvw" [first.named "uyzp", monoid.named "vyp"]
        [monoid.named "wzp"] :=
      keeps_of_labels ["uyzp", "vyp"] ["wzp"] rfl rfl (by simp)
    have hstage := Run.value_eq_ok.mpr hfirst
    have hstage' := Run.value_eq_ok.mpr hsecond
    have hsized' : Join.Sized (letterExtent n m)
        ([first.named "uyzp", monoid.named "vyp"] ++ [monoid.named "wzp"]) :=
      sized_stage hsized hstage
    have hlabels : (['u', 'v', 'w'] ++ ['x', 'y', 'z'] ++ ['p']).Nodup := by decide
    exact reached_iff hlabels (by decide) rfl (Run.value_eq_ok.mpr hlast)
      (sized_stage hsized' hstage') hsized
      fun ρ => (Quantifies.any.exists_staged_iff hkeeps' hsized' hstage').trans
        (Quantifies.any.exists_staged_iff hkeeps hsized hstage)

/-! ## The comparison -/

theorem contained_spec {contained : Tensor Bool}
    (h : (truthValues.map2 .leq reached rel).value = .ok contained) :
    contained.shape = reached.shape ∧ contained.InBounds ∧
      ∀ index ∈ reached.shape.indices, contained.get index = .ok true ↔
        (reached.get index = .ok true → rel.get index = .ok true) := by
  obtain ⟨-, hfill⟩ := Tensor.map2_ok (Run.value_eq_ok.mp h)
  obtain ⟨hshape, hbounds, hget⟩ := Tensor.fill_spec hfill
  refine ⟨hshape, hbounds, fun index hindex => ?_⟩
  obtain ⟨c, hc, s, s', hcell⟩ := hget index hindex
  obtain ⟨a, ha, hcell⟩ := Run.lift_bind_eq_ok.mp hcell
  obtain ⟨b, hb, hcell⟩ := Run.lift_bind_eq_ok.mp hcell
  cases hcell
  rw [hc, ha, hb]
  cases a <;> simp

/-- A relation is kept if every map sends each of its tuples into it. -/
theorem isCompatible_iff {r : Nat} (hleast : 1 ≤ r) (hmost : r ≤ 3)
    (hrel : rel.shape = List.replicate r n) (hmonoid : monoid.shape = [n, n, m]) {b : Bool}
    (h : (isCompatible truthValues rel monoid).value = .ok b) :
    b = true ↔ ∀ p < m, ∀ x ∈ rel.shape.indices, rel.get x = .ok true →
      ∀ u ∈ rel.shape.indices,
        List.Forall₂ (fun u x => monoid.get [u, x, p] = .ok true) u x → rel.get u = .ok true := by
  have hrun := Run.value_eq_ok.mp h
  obtain ⟨_, -, hrun⟩ := Run.lift_bind_eq_ok.mp hrun
  obtain ⟨_, -, hrun⟩ := Run.lift_bind_eq_ok.mp hrun
  obtain ⟨reached, s, himage, hrun⟩ := Run.bind_eq_ok.mp hrun
  obtain ⟨contained, s', hmap, hrun⟩ := Run.bind_eq_ok.mp hrun
  obtain ⟨hreached, hcells⟩ := image_spec hleast hmost hrel hmonoid (Run.value_eq_ok.mpr himage)
  obtain ⟨hshape, hbounds, hcontained⟩ := contained_spec (Run.value_eq_ok.mpr hmap)
  have hsame : reached.shape = rel.shape := hreached.trans hrel.symm
  have hrank : rel.rank = contained.rank := by
    rw [Tensor.rank, Tensor.rank, hshape, hsame]
  rw [foldedAll_iff hbounds hrank (Run.value_eq_ok.mpr hrun), hshape]
  constructor
  · intro h p hp x hx htrue u hu hmaps
    rw [← hsame] at hu
    obtain ⟨b, hget, hb⟩ := hcells u hu
    obtain rfl : b = true := hb.mpr ⟨p, hp, x, hx, htrue, hmaps⟩
    exact (hcontained u hu).mp (h u hu) hget
  · intro h u hu
    refine (hcontained u hu).mpr fun htrue => ?_
    obtain ⟨b, hget, hb⟩ := hcells u hu
    obtain ⟨p, hp, x, hx, hrel, hmaps⟩ := hb.mp (Except.ok.inj (hget.symm.trans htrue))
    exact h p hp x hx hrel u (hsame ▸ hu) hmaps

/-- The order on two elements. -/
def order : Tensor Bool :=
  { shape := [2, 2], strides := [2, 1], offset := 0, buffer := #[true, true, false, true] }

/-- The identity and the constant 0. -/
def monotoneMaps : Tensor Bool :=
  { shape := [2, 2, 2], strides := [4, 2, 1], offset := 0,
    buffer := #[true, true, false, true, false, false, true, false] }

/-- Both maps keep the order. Taken apart, the identity on one coordinate and the constant
on the other do not. -/
theorem isCompatible_iff_order :
    order.shape = List.replicate 2 2 ∧ monotoneMaps.shape = [2, 2, 2] ∧
      (isCompatible truthValues order monotoneMaps).value = .ok true ∧
      ∀ p < 2, ∀ x ∈ order.shape.indices, order.get x = .ok true → ∀ u ∈ order.shape.indices,
        List.Forall₂ (fun u x => monotoneMaps.get [u, x, p] = .ok true) u x →
          order.get u = .ok true := by
  have hrel : order.shape = List.replicate 2 2 := rfl
  have hrun : (isCompatible truthValues order monotoneMaps).value = .ok true := by
    decide +kernel
  exact ⟨hrel, rfl, hrun, (isCompatible_iff (by decide) (by decide) hrel rfl hrun).mp rfl⟩

end TensorLogic.Relation
