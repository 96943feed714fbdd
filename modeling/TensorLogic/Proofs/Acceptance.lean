import Mathlib.Data.List.Induction
import TensorLogic.Proofs.Folds
import TensorLogic.Proofs.Relabelling

/-!
# Which contractions are accepted

The checks of a join go through operands, labels and output one after the other, against the
axes found so far. What they let through is said without any order: counts, extents and output
labels that fit (`WellFormed`). What they report depends on the order. All misfits but one are
reported as invalid labels; a shape mismatch is reported exactly if a second extent of a label
is the first thing wrong (`FirstConflict`), with the shapes of the operand that the label was
first seen in and of the one that disagrees.

`scanned` lists the axes of the operands in the order of the scan. Along it, the axes that the
code keeps find the same entry for each label as the list itself, and that is the invariant
behind both answers: a list without conflicts is entered as a whole, and the first conflict
stops the scan where it stands.

Behind the checks the cells are read and combined, once per joint index, if a buffer for them
can be asked for. No other step stands between a well-formed contraction and its result
(`join_outcome`).
-/

namespace TensorLogic

variable {α β σ : Type}

/-- The axes of an operand, with the shape that they belong to. -/
def Labelled.axes (operand : Labelled α) : List JointAxis :=
  (operand.letters.zip operand.tensor.shape).map fun axis =>
    { label := axis.1, extent := axis.2, owner := operand.tensor.shape }

/-- One label for each axis. -/
def Labelled.Counted (operand : Labelled α) : Prop :=
  operand.letters.length = operand.tensor.shape.length

namespace Join

/-- The axes of all operands, one after the other. -/
def scanned (operands : List (Labelled α)) : List JointAxis :=
  operands.flatMap Labelled.axes

/-- Axes that carry one label have one extent. -/
def Consistent (axes : List JointAxis) : Prop :=
  ∀ a ∈ axes, ∀ b ∈ axes, a.label = b.label → a.extent = b.extent

/-- A contraction that makes sense. -/
structure WellFormed (output : String) (operands : List (Labelled α)) : Prop where
  nonempty : operands ≠ []
  counted : ∀ operand ∈ operands, operand.Counted
  consistent : Consistent (scanned operands)
  nodup : output.toList.Nodup
  known : ∀ c ∈ output.toList, ∃ operand ∈ operands, c ∈ operand.letters

/-- The axis has another extent than the first one of its label. -/
def Clash (seen : List JointAxis) (first axis : JointAxis) : Prop :=
  lookup seen axis.label = some first ∧ first.extent ≠ axis.extent

/-- The first thing wrong, operand by operand and axis by axis, is a second extent of a label:
nothing is wrong in front of the axis `axis`, in the operand of shape `right`, and the label
was first seen in an operand of shape `left`. -/
def FirstConflict (operands : List (Labelled α)) (left right : Shape) : Prop :=
  ∃ before operand behind front axis rest first,
    operands = before ++ operand :: behind ∧
    (∀ other ∈ before ++ [operand], other.Counted) ∧
    operand.axes = front ++ axis :: rest ∧
    Consistent (scanned before ++ front) ∧
    Clash (scanned before ++ front) first axis ∧
    left = first.owner ∧ right = operand.tensor.shape

/-! ## The scan -/

theorem scanned_append (front behind : List (Labelled α)) :
    scanned (front ++ behind) = scanned front ++ scanned behind :=
  List.flatMap_append

theorem Consistent.sublist {axes axes' : List JointAxis} (h : Consistent axes)
    (hsub : axes'.Sublist axes) : Consistent axes' :=
  fun a ha b hb => h a (hsub.subset ha) b (hsub.subset hb)

theorem mem_of_lookup {axes : List JointAxis} {c : Char} {axis : JointAxis}
    (h : lookup axes c = some axis) : axis ∈ axes ∧ axis.label = c := by
  have hlabel := List.find?_some h
  exact ⟨List.mem_of_find?_eq_some h, eq_of_beq hlabel⟩

theorem Consistent.not_clash {axes seen rest : List JointAxis} {first axis : JointAxis}
    (h : Consistent axes) (haxes : axes = seen ++ axis :: rest) : ¬Clash seen first axis := by
  rintro ⟨hfirst, hne⟩
  obtain ⟨hmem, hlabel⟩ := mem_of_lookup hfirst
  refine hne (h first ?_ axis ?_ hlabel)
  · rw [haxes]
    exact List.mem_append_left _ hmem
  · rw [haxes]
    exact List.mem_append_right _ List.mem_cons_self

/-- One more axis keeps the axes consistent unless it clashes. -/
theorem Consistent.push {seen : List JointAxis} {axis : JointAxis} (h : Consistent seen)
    (haxis : ∀ first, ¬Clash seen first axis) : Consistent (seen ++ [axis]) := by
  have hold : ∀ a ∈ seen, a.label = axis.label → a.extent = axis.extent := by
    intro a ha hlabel
    have hfound : axis.label ∈ seen.map (·.label) := hlabel ▸ List.mem_map_of_mem ha
    obtain ⟨first, hfirst⟩ := Option.isSome_iff_exists.mp (lookup_isSome_iff.mpr hfound)
    obtain ⟨hmem, hsame⟩ := mem_of_lookup hfirst
    have hextent : first.extent = axis.extent := by
      by_contra hne
      exact haxis first ⟨hfirst, hne⟩
    rw [← hextent]
    exact h a ha first hmem (hlabel.trans hsame.symm)
  intro a ha b hb hlabel
  rw [List.mem_append, List.mem_singleton] at ha hb
  rcases ha with ha | rfl <;> rcases hb with hb | rfl
  · exact h a ha b hb hlabel
  · exact hold a ha hlabel
  · exact (hold b hb hlabel.symm).symm
  · rfl

/-- Axes go through as a whole or up to the first clash. -/
theorem Consistent.append_or {seen : List JointAxis} (h : Consistent seen)
    (axes : List JointAxis) :
    Consistent (seen ++ axes) ∨
      ∃ front axis rest first, axes = front ++ axis :: rest ∧
        Consistent (seen ++ front) ∧ Clash (seen ++ front) first axis := by
  induction axes generalizing seen with
  | nil => exact .inl (by rwa [List.append_nil])
  | cons axis axes ih =>
      by_cases hclash : ∃ first, Clash seen first axis
      · obtain ⟨first, hclash⟩ := hclash
        refine .inr ⟨[], axis, axes, first, rfl, ?_⟩
        rw [List.append_nil]
        exact ⟨h, hclash⟩
      · have hsplit : seen ++ axis :: axes = seen ++ [axis] ++ axes := by simp
        rw [hsplit]
        refine (ih (h.push (not_exists.mp hclash))).imp_right ?_
        rintro ⟨front, other, rest, first, rfl, hfront, hclash⟩
        rw [List.append_assoc, List.singleton_append] at hfront hclash
        exact ⟨axis :: front, other, rest, first, rfl, hfront, hclash⟩

/-- Going through the operands, nothing is wrong, or a count is the first thing wrong, or an
extent is. -/
theorem scan_cases (operands : List (Labelled α)) :
    ((∀ operand ∈ operands, operand.Counted) ∧ Consistent (scanned operands)) ∨
    (∃ before operand behind, operands = before ++ operand :: behind ∧
      (∀ other ∈ before, other.Counted) ∧ Consistent (scanned before) ∧ ¬operand.Counted) ∨
    ∃ left right, FirstConflict operands left right := by
  induction operands using List.reverseRecOn with
  | nil => exact .inl ⟨by simp, fun a ha => by cases ha⟩
  | append_singleton operands operand ih =>
      rcases ih with ⟨hcounted, hconsistent⟩ | ⟨before, other, behind, rfl, h⟩ |
        ⟨left, right, before, other, behind, front, axis, rest, first, rfl, h⟩
      · by_cases hoperand : operand.Counted
        · have hall : ∀ other ∈ operands ++ [operand], other.Counted := by
            rw [List.forall_mem_append, List.forall_mem_singleton]
            exact ⟨hcounted, hoperand⟩
          rcases hconsistent.append_or operand.axes with
            hfine | ⟨front, axis, rest, first, haxes, hfront, hclash⟩
          · refine .inl ⟨hall, ?_⟩
            rw [scanned_append]
            simpa [scanned] using hfine
          · exact .inr (.inr ⟨first.owner, operand.tensor.shape, operands, operand, [], front,
              axis, rest, first, rfl, hall, haxes, hfront, hclash, rfl, rfl⟩)
        · exact .inr (.inl ⟨operands, operand, [], rfl, hcounted, hconsistent, hoperand⟩)
      · exact .inr (.inl ⟨before, other, behind ++ [operand], by simp, h⟩)
      · exact .inr (.inr ⟨left, right, before, other, behind ++ [operand], front, axis, rest,
          first, by simp, h⟩)

/-! ## The checks along the scan -/

/-- The axes that were kept find the same entries as the axes that were seen. -/
def Finds (known seen : List JointAxis) : Prop :=
  ∀ c, lookup known c = lookup seen c

theorem lookup_append_eq (front behind : List JointAxis) (c : Char) :
    lookup (front ++ behind) c = (lookup front c).or (lookup behind c) :=
  List.find?_append

theorem Finds.push_known {known seen : List JointAxis} {first : JointAxis} (axis : JointAxis)
    (h : Finds known seen) (haxis : lookup known axis.label = some first) :
    Finds known (seen ++ [axis]) := by
  intro c
  rw [h c]
  cases hfound : lookup seen c with
  | some entry => exact (lookup_append hfound).symm
  | none =>
      have hne : axis.label ≠ c := by
        rintro rfl
        rw [h, hfound] at haxis
        cases haxis
      rw [lookup_append_eq, hfound]
      simp [lookup, hne]

theorem Finds.push_new {known seen : List JointAxis} (axis : JointAxis) (h : Finds known seen) :
    Finds (known ++ [axis]) (seen ++ [axis]) := by
  intro c
  rw [lookup_append_eq, lookup_append_eq, h c]

/-- Axes without a clash are all entered. -/
theorem enterAxes_append {shape : Shape} {axes : List (Char × Nat)}
    {known seen : List JointAxis} (hfinds : Finds known seen)
    (h : Consistent (seen ++ axes.map fun axis =>
      { label := axis.1, extent := axis.2, owner := shape })) :
    ∃ known', Finds known' (seen ++ axes.map fun axis =>
        { label := axis.1, extent := axis.2, owner := shape }) ∧
      ∀ rest, enterAxes shape (axes ++ rest) known = enterAxes shape rest known' := by
  induction axes generalizing known seen with
  | nil => exact ⟨known, by simpa using hfinds, fun _ => rfl⟩
  | cons axis axes ih =>
      obtain ⟨c, extent⟩ := axis
      rw [List.map_cons, ← List.singleton_append, ← List.append_assoc] at h ⊢
      cases hfound : lookup known c with
      | none =>
          obtain ⟨known', hfinds', hrest⟩ := ih (hfinds.push_new _) h
          refine ⟨known', hfinds', fun rest => ?_⟩
          rw [← hrest, List.cons_append, enterAxes, ← lookup, hfound]
      | some first =>
          have hextent : first.extent = extent := by
            by_contra hne
            rw [List.append_assoc, List.singleton_append] at h
            exact h.not_clash rfl ⟨(hfinds c).symm.trans hfound, hne⟩
          obtain ⟨known', hfinds', hrest⟩ := ih
            (hfinds.push_known { label := c, extent, owner := shape } hfound) h
          refine ⟨known', hfinds', fun rest => ?_⟩
          rw [← hrest, List.cons_append, enterAxes, ← lookup, hfound]
          exact if_pos hextent

theorem axes_eq (operand : Labelled α) :
    operand.axes = (operand.letters.zip operand.tensor.shape).map fun axis =>
      { label := axis.1, extent := axis.2, owner := operand.tensor.shape } :=
  rfl

theorem collectAxes_cons {operand : Labelled α} (h : operand.Counted)
    (operands : List (Labelled α)) (known : List JointAxis) :
    collectAxes (operand :: operands) known = (do
      let known ← enterAxes operand.tensor.shape
        (operand.letters.zip operand.tensor.shape) known
      collectAxes operands known) := by
  have hcount : ¬operand.labels.toList.length ≠ operand.tensor.shape.length := not_not.mpr h
  rw [collectAxes, if_neg hcount, Labelled.letters]

/-- Operands without a misfit are all entered. -/
theorem collectAxes_append {operands : List (Labelled α)} {known seen : List JointAxis}
    (hfinds : Finds known seen) (hcounted : ∀ operand ∈ operands, operand.Counted)
    (h : Consistent (seen ++ scanned operands)) :
    ∃ known', Finds known' (seen ++ scanned operands) ∧
      ∀ rest, collectAxes (operands ++ rest) known = collectAxes rest known' := by
  induction operands generalizing known seen with
  | nil => exact ⟨known, by simpa [scanned] using hfinds, fun _ => rfl⟩
  | cons operand operands ih =>
      obtain ⟨hoperand, hcounted⟩ := List.forall_mem_cons.mp hcounted
      rw [scanned, List.flatMap_cons, ← scanned, ← List.append_assoc] at h ⊢
      obtain ⟨entered, hentered, hrest⟩ :=
        enterAxes_append hfinds (h.sublist (List.sublist_append_left _ _))
      have hone := hrest []
      rw [List.append_nil] at hone
      obtain ⟨known', hfinds', hrest'⟩ := ih hentered hcounted h
      refine ⟨known', hfinds', fun rest => ?_⟩
      rw [List.cons_append, collectAxes_cons hoperand, hone, ← hrest']
      rfl

theorem collectAxes_scanned {operands : List (Labelled α)}
    (hcounted : ∀ operand ∈ operands, operand.Counted) (h : Consistent (scanned operands)) :
    ∃ known, Finds known (scanned operands) ∧
      ∀ rest, collectAxes (operands ++ rest) [] = collectAxes rest known := by
  have hnil : [] ++ scanned operands = scanned operands := List.nil_append _
  rw [← hnil] at h ⊢
  exact collectAxes_append (fun _ => rfl) hcounted h

variable {output : String} {operands : List (Labelled α)}

theorem collectAxes_counted {before behind : List (Labelled α)} {operand : Labelled α}
    (hcounted : ∀ other ∈ before, other.Counted) (h : Consistent (scanned before))
    (hoperand : ¬operand.Counted) :
    collectAxes (before ++ operand :: behind) [] =
      refuse (.labelCount operand.labels operand.tensor.shape.length) := by
  obtain ⟨known, -, hrest⟩ := collectAxes_scanned hcounted h
  have hcount : operand.labels.toList.length ≠ operand.tensor.shape.length := hoperand
  rw [hrest, collectAxes, if_pos hcount]
  rfl

/-- The scan stops at the first conflict, and says which two shapes are in it. -/
theorem FirstConflict.collectAxes_eq {left right : Shape}
    (h : FirstConflict operands left right) :
    collectAxes operands [] = refuse (.shapeMismatch .reduce left right) := by
  obtain ⟨before, operand, behind, front, axis, rest, first, rfl, hcounted, haxes, hfront,
    ⟨hfirst, hne⟩, rfl, rfl⟩ := h
  rw [List.forall_mem_append, List.forall_mem_singleton] at hcounted
  obtain ⟨known, hfinds, hrest⟩ := collectAxes_scanned hcounted.1
    (hfront.sublist (List.sublist_append_left _ _))
  rw [hrest, collectAxes_cons hcounted.2]
  rw [axes_eq, List.map_eq_append_iff] at haxes
  obtain ⟨entries, others, hentries, rfl, haxes⟩ := haxes
  rw [List.map_eq_cons_iff] at haxes
  obtain ⟨entry, others, rfl, rfl, rfl⟩ := haxes
  obtain ⟨known', hfinds', hrest'⟩ := enterAxes_append hfinds hfront
  have hfound : lookup known' entry.1 = some first := (hfinds' entry.1).trans hfirst
  rw [hentries, hrest', enterAxes, ← lookup, hfound]
  simp only [if_neg hne]
  rfl

theorem outputAxes_error {known chosen : List JointAxis} {labels : List Char} {fault : Fault}
    (h : outputAxes output known labels chosen = .error fault) :
    ∃ cause, fault = .refused cause ∧ cause.kind = .invalidLabels := by
  induction labels generalizing chosen with
  | nil => cases h
  | cons c labels ih =>
      rw [outputAxes] at h
      split at h
      · cases h
        exact ⟨_, rfl, rfl⟩
      · split at h
        · exact ih h
        · cases h
          exact ⟨_, rfl, rfl⟩

/-- A conflict comes first exactly if the scan reports it. -/
theorem firstConflict_iff {left right : Shape} :
    FirstConflict operands left right ↔
      collectAxes operands [] = .error (.refused (.shapeMismatch .reduce left right)) := by
  refine ⟨fun h => h.collectAxes_eq, fun h => ?_⟩
  rcases scan_cases operands with ⟨hcounted, hconsistent⟩ |
    ⟨before, operand, behind, rfl, hcounted, hconsistent, hoperand⟩ | ⟨left', right', hconflict⟩
  · obtain ⟨known, -, hrest⟩ := collectAxes_scanned hcounted hconsistent
    have hall := hrest []
    rw [List.append_nil, h] at hall
    cases hall
  · rw [collectAxes_counted hcounted hconsistent hoperand] at h
    cases h
  · have hsame := hconflict.collectAxes_eq.symm.trans h
    cases hsame
    exact hconflict

theorem collectAxes_error {fault : Fault} (h : collectAxes operands [] = .error fault) :
    ∃ cause, fault = .refused cause ∧
      (cause.kind = .invalidLabels ∨ ∃ left right, cause = .shapeMismatch .reduce left right) := by
  rcases scan_cases operands with ⟨hcounted, hconsistent⟩ |
    ⟨before, operand, behind, rfl, hcounted, hconsistent, hoperand⟩ | ⟨left, right, hconflict⟩
  · obtain ⟨known, -, hrest⟩ := collectAxes_scanned hcounted hconsistent
    have hall := hrest []
    rw [List.append_nil, h] at hall
    cases hall
  · rw [collectAxes_counted hcounted hconsistent hoperand] at h
    cases h
    exact ⟨_, rfl, .inl rfl⟩
  · rw [hconflict.collectAxes_eq] at h
    cases h
    exact ⟨_, rfl, .inr ⟨left, right, rfl⟩⟩

/-- Well-formed is what fits with some extents. -/
theorem wellFormed_iff_fits :
    WellFormed output operands ↔ ∃ extent, Fits output operands extent := by
  constructor
  · intro h
    refine ⟨extentOf (scanned operands), h.nonempty, fun operand hoperand => ?_, h.nodup, h.known⟩
    refine shape_of_entered (h.counted operand hoperand) fun axis haxis => ?_
    have hmem : ({ label := axis.1, extent := axis.2, owner := operand.tensor.shape } : JointAxis) ∈
        scanned operands :=
      List.mem_flatMap.mpr ⟨operand, hoperand, List.mem_map_of_mem haxis⟩
    obtain ⟨first, hfirst⟩ := Option.isSome_iff_exists.mp
      (lookup_isSome_iff.mpr (List.mem_map_of_mem hmem))
    obtain ⟨hfound, hlabel⟩ := mem_of_lookup hfirst
    exact ⟨first, hfirst, h.consistent _ hfound _ hmem hlabel⟩
  · rintro ⟨extent, h⟩
    have hextent : ∀ axis ∈ scanned operands, axis.extent = extent axis.label := by
      intro axis haxis
      obtain ⟨operand, hoperand, haxis⟩ := List.mem_flatMap.mp haxis
      obtain ⟨⟨c, n⟩, hmem, rfl⟩ := List.mem_map.mp haxis
      have hzip : (operand.letters.map id).zip (operand.letters.map extent) =
          operand.letters.map fun c => (id c, extent c) := List.zip_map'
      rw [List.map_id, ← h.sized operand hoperand] at hzip
      rw [hzip] at hmem
      obtain ⟨d, -, heq⟩ := List.mem_map.mp hmem
      cases heq
      rfl
    refine ⟨h.nonempty, fun operand hoperand => ?_, fun a ha b hb hlabel => ?_, h.nodup, h.known⟩
    · rw [Labelled.Counted, h.sized operand hoperand, List.length_map]
    · rw [hextent a ha, hextent b hb, hlabel]

/-- What is not well-formed is refused, for invalid labels or for the conflict that comes
first. -/
theorem jointAxes_of_not_wellFormed (h : ¬WellFormed output operands) :
    ∃ cause, jointAxes output operands = .error (.refused cause) ∧
      (cause.kind = .invalidLabels ∨ ∃ left right, cause = .shapeMismatch .reduce left right) ∧
      ∀ left right, FirstConflict operands left right ↔
        cause = .shapeMismatch .reduce left right := by
  rw [wellFormed_iff_fits, not_exists] at h
  obtain ⟨cause, hcause⟩ := jointAxes_of_not_fits h
  refine ⟨cause, hcause, ?_⟩
  simp only [firstConflict_iff]
  rw [jointAxes] at hcause
  split at hcause
  next hempty =>
      cases hcause
      rw [List.isEmpty_iff.mp hempty]
      refine ⟨.inl rfl, fun left right => ⟨fun hconflict => ?_, fun hcause => ?_⟩⟩
      · cases hconflict
      · cases hcause
  next =>
      cases hknown : collectAxes operands [] with
      | error fault =>
          obtain ⟨cause', rfl, hkind⟩ := collectAxes_error hknown
          rw [hknown] at hcause
          cases hcause
          refine ⟨hkind, fun left right => ?_⟩
          rw [Except.error.injEq, Fault.refused.injEq]
      | ok known =>
          rw [hknown] at hcause
          change (outputAxes output known output.toList [] >>= _) = _ at hcause
          cases hkept : outputAxes output known output.toList [] with
          | ok kept =>
              rw [hkept] at hcause
              cases hcause
          | error fault =>
              obtain ⟨cause', rfl, hkind⟩ := outputAxes_error hkept
              rw [hkept] at hcause
              cases hcause
              refine ⟨.inl hkind, fun left right => ⟨fun hconflict => ?_, ?_⟩⟩
              · cases hconflict
              · rintro rfl
                cases hkind

/-! ## Behind the checks -/

/-- A buffer of cells of type `β` for the joint index space can be asked for. -/
def Room (β : Type) [Cell β] (output : String) (operands : List (Labelled α)) : Prop :=
  ∀ extent, Sized extent operands →
    Shape.cells ((jointLabels output operands).map extent) * Cell.width β < Nat.pow 2 63

theorem Fits.room_iff [Cell β] {extent : Char → Nat} (h : Fits output operands extent) :
    Room β output operands ↔
      Size.reserve (Shape.cells ((jointLabels output operands).map extent)) (Cell.width β) =
        .ok () := by
  rw [Size.reserve_ok_iff]
  refine ⟨fun hroom => hroom extent h.sized, fun hlt extent' hsized => ?_⟩
  rwa [h.map_jointLabels hsized]

/-- Behind the checks a join generates its cells. -/
theorem Fits.join_eq [Cell β] {extent : Char → Nat} (h : Fits output operands extent)
    (hstorable : Shape.Storable ((jointLabels output operands).map extent))
    (combine : List α → Run σ β) :
    join output operands combine = (do
      let tensor ← Tensor.generate ((jointLabels output operands).map extent) fun index => do
        let cells : List α ← readAll output operands index
        combine cells
      return { tensor, labels := String.ofList (jointLabels output operands),
               folded := (foldedLabels output operands).length }) := by
  obtain ⟨⟨kept, folded⟩, haxes, hshape⟩ := h.jointAxes_ok
  obtain ⟨hkept, hfolded, -⟩ := jointAxes_spec haxes
  have hlabels : (kept ++ folded).map (·.label) = jointLabels output operands := by
    rw [List.map_append, hkept, hfolded, jointLabels]
  have hlength : folded.length = (foldedLabels output operands).length := by
    rw [← hfolded, List.length_map]
  rw [Join.join_eq, haxes]
  change (do
    let _ : Nat ← Size.checked ((kept ++ folded).map (·.extent))
    let tensor ← Tensor.generate ((kept ++ folded).map (·.extent)) fun index => do
      let cells : List α ← readAll output operands index
      combine cells
    return { tensor, labels := String.ofList ((kept ++ folded).map (·.label)),
             folded := folded.length } : Run σ (Joined β)) = _
  rw [hshape, hlabels, hlength, hstorable.checked]
  rfl

/-- Without memory for the cells, nothing is combined. -/
theorem Fits.join_no_room [Cell β] {extent : Char → Nat} (h : Fits output operands extent)
    (hstorable : Shape.Storable ((jointLabels output operands).map extent))
    (hroom : ¬Room β output operands) (combine : List α → Run σ β) :
    join output operands combine =
      trap (.capacity (Shape.cells ((jointLabels output operands).map extent))) := by
  rw [h.room_iff] at hroom
  rw [h.join_eq hstorable, Tensor.generate_overflows hstorable hroom]
  rfl

/-- With memory for the cells, the join is the run of the calls on its rows. -/
theorem Fits.join_eq_bind [Cell β] {extent : Char → Nat} (h : Fits output operands extent)
    (hstorable : Shape.Storable ((jointLabels output operands).map extent))
    (hroom : Room β output operands) {rows : List (List α)}
    (hrows : List.Forall₂ (fun index row => readAll output operands index = .ok row)
      (Shape.indices ((jointLabels output operands).map extent)) rows)
    (combine : List α → Run σ β) :
    join output operands combine = (do
      let results : List β ← rows.mapM combine
      let tensor : Tensor β ←
        Tensor.dense ((jointLabels output operands).map extent) results.toArray
      return { tensor, labels := String.ofList (jointLabels output operands),
               folded := (foldedLabels output operands).length }) := by
  rw [h.join_eq hstorable, Tensor.generate_eq_bind ⟨hstorable, h.room_iff.mp hroom⟩,
    Run.mapM_read hrows combine]
  exact bind_assoc (rows.mapM combine) _ _

/-- The calls of a join that has room for their results. -/
theorem Fits.join_calls {extent : Char → Nat} (h : Fits output operands extent)
    (hread : ∀ operand ∈ operands, operand.tensor.InBounds)
    (hstorable : Shape.Storable ((jointLabels output operands).map extent)) :
    ∃ rows, List.Forall₂ (fun index row => readAll output operands index = .ok row)
        (Shape.indices ((jointLabels output operands).map extent)) rows ∧
      ∀ (σ β : Type) [Cell β], Room β output operands → ∀ (combine : List α → Run σ β) (s : σ),
        (∀ fault s', rows.mapM combine s = .error fault s' →
          join output operands combine s = .error fault s') ∧
        ∀ results s', rows.mapM combine s = .ok results s' →
          ∃ joined, join output operands combine s = .ok joined s' ∧
            joined.tensor.shape = (jointLabels output operands).map extent ∧
            List.Forall₂ (fun index result => joined.tensor.get index = .ok result)
              joined.tensor.shape.indices results ∧
            ∀ log, join output operands (Run.logged combine) (s, log) =
              .ok joined (s', log ++ rows) := by
  obtain ⟨rows, hrows⟩ : ∃ rows, (Shape.indices ((jointLabels output operands).map extent)).mapM
      (readAll output operands) = .ok rows :=
    mapM_ok_of_forall fun index hindex =>
      (h.readAll_ok (fun operand hoperand => (hread operand hoperand).readable) hindex).imp
        fun _ => And.left
  have hrows := mapM_eq_ok.mp hrows
  refine ⟨rows, hrows, fun σ β _ hroom combine s =>
    ⟨fun fault s' hrun => ?_, fun results s' hrun => ?_⟩⟩
  · rw [h.join_eq_bind hstorable hroom hrows]
    exact Run.bind_error hrun
  · obtain ⟨r, hdense, hshape, -, hget⟩ :=
      Tensor.dense_cells hstorable (hrows.length_eq.trans (Run.mapM_ok hrun).length_eq)
    refine ⟨{ tensor := r, labels := String.ofList (jointLabels output operands),
              folded := (foldedLabels output operands).length }, ?_, hshape, ?_, fun log => ?_⟩
    · rw [h.join_eq_bind hstorable hroom hrows]
      exact Run.bind_eq_ok.mpr ⟨results, s', hrun, Run.lift_bind_eq_ok.mpr ⟨r, hdense, rfl⟩⟩
    · rw [hshape]
      exact hget
    · rw [h.join_eq_bind hstorable hroom hrows]
      exact Run.bind_eq_ok.mpr ⟨results, _, Run.mapM_logged hrun log,
        Run.lift_bind_eq_ok.mpr ⟨r, hdense, rfl⟩⟩

theorem join_of_not_wellFormed (h : ¬WellFormed output operands) :
    ∃ cause : Error,
      (∀ (σ β : Type) [Cell β] (combine : List α → Run σ β),
        join output operands combine = refuse cause) ∧
      (cause.kind = .invalidLabels ∨ ∃ left right, cause = .shapeMismatch .reduce left right) ∧
      ∀ left right, FirstConflict operands left right ↔
        cause = .shapeMismatch .reduce left right := by
  obtain ⟨cause, hcause, hkind, hconflict⟩ := jointAxes_of_not_wellFormed h
  refine ⟨cause, fun σ β _ combine => ?_, hkind, hconflict⟩
  rw [Join.join_eq, hcause]
  rfl

theorem WellFormed.fits (h : WellFormed output operands) (hword : FitsWord operands) :
    ∃ extent, Fits output operands extent ∧
      Shape.Storable ((jointLabels output operands).map extent) :=
  have ⟨extent, hfits⟩ := wellFormed_iff_fits.mp h
  ⟨extent, hfits, Shape.storable_of_nonzeroCells (.refl _) (hfits.nonzeroCells_lt hword)⟩

/-- A join whose calls all return returns exactly if it is well-formed and there is room for its
cells (the first part). If it is not well-formed it is refused, whatever the calls would do: for
a shape mismatch exactly if the first thing wrong is a second extent of a label, with the two
shapes in conflict, and for invalid labels otherwise (the second). Without room it stops before
the first call (the third). Otherwise there is one call for each joint index, in row-major
order, on the cells that the operands have there; the join fails when and as a call does, and
its cells are what the calls return (the fourth). -/
theorem join_outcome (hread : ∀ operand ∈ operands, operand.tensor.InBounds)
    (hword : FitsWord operands) :
    (∀ (σ β : Type) [Cell β] (combine : List α → Run σ β) (s : σ),
      (∀ cells s, ∃ b s', combine cells s = .ok b s') →
      ((∃ joined s', join output operands combine s = .ok joined s') ↔
        WellFormed output operands ∧ Room β output operands)) ∧
    (¬WellFormed output operands → ∃ cause : Error,
      (∀ (σ β : Type) [Cell β] (combine : List α → Run σ β),
        join output operands combine = refuse cause) ∧
      (cause.kind = .invalidLabels ∨ ∃ left right, cause = .shapeMismatch .reduce left right) ∧
      ∀ left right, FirstConflict operands left right ↔
        cause = .shapeMismatch .reduce left right) ∧
    (WellFormed output operands → ∀ (σ β : Type) [Cell β], ¬Room β output operands →
      ∃ n, ∀ combine : List α → Run σ β, join output operands combine = trap (.capacity n)) ∧
    (WellFormed output operands →
      ∃ extent rows, Sized extent operands ∧
        List.Forall₂ (fun index row => readAll output operands index = .ok row)
          (Shape.indices ((jointLabels output operands).map extent)) rows ∧
        ∀ (σ β : Type) [Cell β], Room β output operands →
          ∀ (combine : List α → Run σ β) (s : σ),
            (∀ fault s', rows.mapM combine s = .error fault s' →
              join output operands combine s = .error fault s') ∧
            ∀ results s', rows.mapM combine s = .ok results s' →
              ∃ joined, join output operands combine s = .ok joined s' ∧
                joined.tensor.shape = (jointLabels output operands).map extent ∧
                List.Forall₂ (fun index result => joined.tensor.get index = .ok result)
                  joined.tensor.shape.indices results ∧
                ∀ log, join output operands (Run.logged combine) (s, log) =
                  .ok joined (s', log ++ rows)) := by
  refine ⟨fun σ β _ combine s htotal => ⟨?_, ?_⟩, join_of_not_wellFormed,
    fun h σ β _ hroom => ?_, fun h => ?_⟩
  · rintro ⟨joined, s', hjoin⟩
    by_cases h : WellFormed output operands
    · refine ⟨h, ?_⟩
      by_contra hroom
      obtain ⟨extent, hfits, hstorable⟩ := h.fits hword
      rw [hfits.join_no_room hstorable hroom] at hjoin
      cases hjoin
    · obtain ⟨cause, hcause, -⟩ := join_of_not_wellFormed h
      rw [hcause] at hjoin
      cases hjoin
  · rintro ⟨h, hroom⟩
    obtain ⟨extent, hfits, hstorable⟩ := h.fits hword
    obtain ⟨rows, -, hcalls⟩ := hfits.join_calls hread hstorable
    obtain ⟨results, s', hrun⟩ := Run.mapM_total htotal rows s
    obtain ⟨joined, hjoin, -⟩ := (hcalls σ β hroom combine s).2 results s' hrun
    exact ⟨joined, s', hjoin⟩
  · obtain ⟨extent, hfits, hstorable⟩ := h.fits hword
    exact ⟨_, fun combine => hfits.join_no_room hstorable hroom combine⟩
  · obtain ⟨extent, hfits, hstorable⟩ := h.fits hword
    obtain ⟨rows, hrows, hcalls⟩ := hfits.join_calls hread hstorable
    exact ⟨extent, rows, hfits.sized, hrows, hcalls⟩

/-- Two relations that give their common label two extents. -/
def clashing : List (Labelled Bool) :=
  [(Tensor.constant [2, 2] true).named "xy", (Tensor.constant [3, 2] true).named "yz"]

/-- Whether one of the cells holds. -/
def anyCell (cells : List Bool) : Run Unit Bool :=
  pure (cells.any fun cell => cell)

theorem composed_fits : Fits "xz" composed fun _ => 2 := by
  have hknown : ∀ c ∈ ['x', 'z'], ∃ operand ∈ composed, c ∈ operand.letters :=
    List.forall_mem_cons.mpr ⟨⟨_, List.mem_cons_self, by decide⟩, List.forall_mem_singleton.mpr
      ⟨_, List.mem_cons_of_mem _ List.mem_cons_self, by decide⟩⟩
  exact ⟨by decide, by unfold Sized; decide, by decide, hknown⟩

theorem clashing_firstConflict : FirstConflict clashing [2, 2] [3, 2] :=
  ⟨[(Tensor.constant [2, 2] true).named "xy"], (Tensor.constant [3, 2] true).named "yz", [], [],
    { label := 'y', extent := 3, owner := [3, 2] },
    [{ label := 'z', extent := 2, owner := [3, 2] }],
    { label := 'y', extent := 2, owner := [2, 2] },
    rfl, by unfold Labelled.Counted; decide, rfl, by unfold Consistent; decide,
    ⟨rfl, by decide⟩, rfl, rfl⟩

theorem clashing_not_sized {extent : Char → Nat} : ¬Sized extent clashing := by
  intro h
  obtain ⟨hleft, hright, -⟩ : [2, 2] = [extent 'x', extent 'y'] ∧
      [3, 2] = [extent 'y', extent 'z'] ∧ True :=
    ⟨h _ List.mem_cons_self, h _ (List.mem_cons_of_mem _ List.mem_cons_self), trivial⟩
  simp only [List.cons.injEq] at hleft hright
  omega

/-- A vector of 2^62 cells, which all read the same stored cell. -/
def wideVector : List (Labelled Nat) :=
  [(Tensor.constant [4611686018427387904] 7).named "x"]

theorem wideVector_inBounds : ∀ operand ∈ wideVector, operand.tensor.InBounds :=
  List.forall_mem_singleton.mpr (Tensor.constant_spec _ _).1

theorem wideVector_fits : Fits "" wideVector fun _ => 4611686018427387904 :=
  ⟨by decide, by unfold Sized; decide, by decide, nofun⟩

theorem wideVector_fitsWord : FitsWord wideVector :=
  fitsWord_vector rfl (by decide) (by decide)

theorem wideVector_no_room : ¬Room Nat "" wideVector := by
  rw [wideVector_fits.room_iff, Size.reserve_ok_iff]
  decide

/-- A composite is joined with one call for each of its eight joint indices, a clash is reported
with its two shapes, and the wide vector stops its join. -/
theorem join_outcome_composed :
    (∃ joined s', join "xz" composed anyCell () = .ok joined s') ∧
      (∃ rows joined, rows.length = 8 ∧
        join "xz" composed (Run.logged anyCell) ((), []) = .ok joined ((), rows)) ∧
      FirstConflict clashing [2, 2] [3, 2] ∧
      join "xz" clashing anyCell = refuse (.shapeMismatch .reduce [2, 2] [3, 2]) ∧
      ∃ n, ∀ combine : List Nat → Run Unit Nat,
        join "" wideVector combine = trap (.capacity n) := by
  have hwell : WellFormed "xz" composed := wellFormed_iff_fits.mpr ⟨_, composed_fits⟩
  have hroom : Room Bool "xz" composed := composed_fits.room_iff.mpr rfl
  obtain ⟨hreturns, -, -, hcalls⟩ := @join_outcome _ "xz" _ composed_inBounds composed_fitsWord
  have hclashing : ∀ operand ∈ clashing, operand.tensor.InBounds := by
    simp only [clashing, List.forall_mem_cons]
    exact ⟨(Tensor.constant_spec _ _).1, (Tensor.constant_spec _ _).1, nofun⟩
  have hword : FitsWord clashing := fun _ hsized => (clashing_not_sized hsized).elim
  obtain ⟨-, hrefused, -⟩ := @join_outcome _ "xz" _ hclashing hword
  obtain ⟨-, -, hshort, -⟩ := @join_outcome _ "" _ wideVector_inBounds wideVector_fitsWord
  refine ⟨?_, ?_, clashing_firstConflict, ?_, ?_⟩
  · exact (hreturns Unit Bool anyCell () fun cells _ => ⟨_, _, rfl⟩).mpr ⟨hwell, hroom⟩
  · obtain ⟨extent, rows, hsized, hrows, hrun⟩ := hcalls hwell
    have hany : rows.mapM anyCell () = .ok (rows.map fun row => row.any fun cell => cell) () :=
      congrFun List.mapM_pure ()
    obtain ⟨joined, -, -, -, hlogged⟩ := (hrun Unit Bool hroom anyCell ()).2 _ () hany
    refine ⟨rows, joined, ?_, by simpa using hlogged []⟩
    rw [← hrows.length_eq, composed_fits.map_jointLabels hsized]
    decide
  · have hnot : ¬WellFormed "xz" clashing := fun h =>
      let ⟨_, hfits⟩ := wellFormed_iff_fits.mp h
      clashing_not_sized hfits.sized
    obtain ⟨cause, hcause, -, hconflict⟩ := hrefused hnot
    rw [hcause, (hconflict _ _).mp clashing_firstConflict]
  · exact hshort (wellFormed_iff_fits.mpr ⟨_, wideVector_fits⟩) Unit Nat wideVector_no_room

/-- The indices of the vector fit in a word, and a buffer for its cells cannot be asked for. -/
theorem join_wideVector :
    (∀ operand ∈ wideVector, operand.tensor.InBounds) ∧ FitsWord wideVector ∧
      WellFormed "" wideVector ∧
      ∀ combine : List Nat → Run Unit Nat,
        join "" wideVector combine = trap (.capacity 4611686018427387904) := by
  refine ⟨wideVector_inBounds, wideVector_fitsWord,
    wellFormed_iff_fits.mpr ⟨_, wideVector_fits⟩, ?_⟩
  exact wideVector_fits.join_no_room (Shape.storable_of_nonzeroCells (.refl _)
    (wideVector_fits.nonzeroCells_lt wideVector_fitsWord)) wideVector_no_room

end Join

end TensorLogic
