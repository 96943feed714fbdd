import TensorLogic.Proofs.Agreement
import TensorLogic.Tensor.Join

/-!
# The joint index space

What the label checks of a join let through, and how the axes of the joint index
space are then laid out: the labels of the output first, then every other label in
the order of its first appearance (`jointAxes_spec`). That every axis carrying a
label has one extent comes out as a function from labels to extents which gives
back the shape of each operand.

The axes found so far only ever grow at the end, so an extent that was looked up
once stays the extent of its label. This is the invariant behind `collectAxes`.
-/

namespace TensorLogic

variable {α β : Type}

/-- The labels of an operand, axis by axis. -/
def Labelled.letters (operand : Labelled α) : List Char :=
  operand.labels.toList

namespace Join

/-- The labels that the output lacks, in the order of their first appearance. -/
def foldedLabels (output : String) (operands : List (Labelled α)) : List Char :=
  (operands.flatMap Labelled.letters).eraseDups.filter fun c => !output.toList.contains c

/-- The labels of the joint index space, axis by axis. -/
def jointLabels (output : String) (operands : List (Labelled α)) : List Char :=
  output.toList ++ foldedLabels output operands

/-- The axis that carries a label. -/
def lookup (known : List JointAxis) (c : Char) : Option JointAxis :=
  known.find? (·.label == c)

def extentOf (known : List JointAxis) (c : Char) : Nat :=
  ((lookup known c).map (·.extent)).getD 0

theorem lookup_append {known more : List JointAxis} {c : Char} {axis : JointAxis}
    (h : lookup known c = some axis) : lookup (known ++ more) c = some axis := by
  rw [lookup] at h ⊢
  rw [List.find?_append, h]
  rfl

theorem lookup_isSome_iff {known : List JointAxis} {c : Char} :
    (lookup known c).isSome ↔ c ∈ known.map (·.label) := by
  simp only [lookup, List.find?_isSome, beq_iff_eq, List.mem_map]

theorem enterAxes_ok {shape : Shape} {axes : List (Char × Nat)}
    {known result : List JointAxis} (h : enterAxes shape axes known = .ok result) :
    ∃ more, result = known ++ more ∧
      more.map (·.label) =
        ((axes.map (·.1)).filter fun c => !(known.map (·.label)).contains c).eraseDups ∧
      ∀ axis ∈ axes, ∃ entry, lookup result axis.1 = some entry ∧ entry.extent = axis.2 := by
  induction axes generalizing known with
  | nil =>
      cases h
      exact ⟨[], by simp, by simp, fun axis haxis => by cases haxis⟩
  | cons axis axes ih =>
      obtain ⟨c, extent⟩ := axis
      rw [enterAxes] at h
      split at h
      next entry hentry =>
          split at h
          next hextent =>
              obtain ⟨more, rfl, hlabels, hall⟩ := ih h
              have hmem : c ∈ known.map (·.label) :=
                lookup_isSome_iff.mp (by rw [lookup, hentry]; rfl)
              refine ⟨more, rfl, ?_, ?_⟩
              · rw [hlabels, List.map_cons, List.filter_cons_of_neg (by simpa using hmem)]
              · intro axis haxis
                rcases List.mem_cons.mp haxis with rfl | haxis
                · exact ⟨entry, lookup_append hentry, hextent⟩
                · exact hall axis haxis
          next => cases h
      next hnone =>
          obtain ⟨more, rfl, hlabels, hall⟩ := ih h
          have hmem : c ∉ known.map (·.label) := fun hmem => by
            have := lookup_isSome_iff.mpr hmem
            rw [lookup, hnone] at this
            cases this
          refine ⟨{ label := c, extent, owner := shape } :: more, by simp, ?_, ?_⟩
          · rw [List.map_cons, hlabels, List.map_cons,
              List.filter_cons_of_pos (by simpa using hmem), List.eraseDups_cons,
              List.filter_filter]
            congr 2
            refine List.filter_congr fun d _ => ?_
            simp only [List.map_append, List.map_cons, List.map_nil, List.contains_append,
              Bool.not_or, List.contains_cons, List.contains_nil, Bool.or_false]
            rw [Bool.and_comm]
          · intro axis haxis
            rcases List.mem_cons.mp haxis with rfl | haxis
            · refine ⟨{ label := c, extent, owner := shape }, lookup_append ?_, rfl⟩
              rw [lookup, List.find?_append, hnone]
              simp
            · exact hall axis haxis

/-- What looking labels up gives back is the shape that was entered. -/
theorem shape_of_entered {shape : Shape} {labels : List Char} {result : List JointAxis}
    (hlen : labels.length = shape.length)
    (h : ∀ axis ∈ labels.zip shape,
      ∃ entry, lookup result axis.1 = some entry ∧ entry.extent = axis.2) :
    shape = labels.map (extentOf result) := by
  induction labels generalizing shape with
  | nil => exact List.eq_nil_of_length_eq_zero hlen.symm
  | cons c labels ih =>
      match shape, hlen with
      | n :: shape, hlen =>
          rw [List.zip_cons_cons] at h
          obtain ⟨entry, hentry, hextent⟩ := h (c, n) List.mem_cons_self
          rw [List.map_cons,
            ← ih (Nat.succ.inj hlen) fun axis haxis => h axis (List.mem_cons_of_mem _ haxis)]
          simp [extentOf, hentry, hextent]

theorem extentOf_append {known more : List JointAxis} {c : Char}
    (h : c ∈ known.map (·.label)) : extentOf (known ++ more) c = extentOf known c := by
  obtain ⟨entry, hentry⟩ := Option.isSome_iff_exists.mp (lookup_isSome_iff.mpr h)
  rw [extentOf, extentOf, lookup_append hentry, hentry]

theorem nodup_eraseDups (l : List Char) : l.eraseDups.Nodup := by
  match l with
  | [] => simp
  | c :: l =>
      rw [List.eraseDups_cons, List.nodup_cons]
      exact ⟨by simp [List.mem_eraseDups], nodup_eraseDups _⟩
termination_by l.length
decreasing_by exact Nat.lt_succ_of_le (List.length_filter_le _ _)

theorem eraseDups_of_nodup {labels : List Char} (h : labels.Nodup) : labels.eraseDups = labels := by
  induction labels with
  | nil => rfl
  | cons c labels ih =>
      obtain ⟨hc, hrest⟩ := List.nodup_cons.mp h
      have hfilter : labels.filter (fun d => !d == c) = labels := by
        refine List.filter_eq_self.mpr fun d hd => ?_
        have hne : d ≠ c := fun heq => hc (heq ▸ hd)
        simpa using hne
      rw [List.eraseDups_cons, hfilter, ih hrest]

/-- Where no label occurs twice, each axis is the one that its label finds. -/
theorem lookup_label {known : List JointAxis} (h : (known.map (·.label)).Nodup)
    {axis : JointAxis} (haxis : axis ∈ known) : lookup known axis.label = some axis := by
  induction known with
  | nil => cases haxis
  | cons entry known ih =>
      rw [List.map_cons, List.nodup_cons] at h
      rcases List.mem_cons.mp haxis with rfl | hmem
      · simp [lookup]
      · have hne : entry.label ≠ axis.label := fun heq =>
          h.1 (heq ▸ List.mem_map_of_mem hmem)
        rw [lookup, List.find?_cons_of_neg (by simpa using hne)]
        exact ih h.2 hmem

theorem collectAxes_ok {operands : List (Labelled α)} {known result : List JointAxis}
    (h : collectAxes operands known = .ok result) :
    ∃ more, result = known ++ more ∧
      more.map (·.label) = ((operands.flatMap Labelled.letters).filter fun c =>
        !(known.map (·.label)).contains c).eraseDups ∧
      ∀ operand ∈ operands,
        operand.tensor.shape = operand.letters.map (extentOf result) ∧
          ∀ c ∈ operand.letters, c ∈ result.map (·.label) := by
  induction operands generalizing known with
  | nil =>
      cases h
      exact ⟨[], by simp, by simp, fun operand hoperand => by cases hoperand⟩
  | cons operand operands ih =>
      rw [collectAxes] at h
      split at h
      · cases h
      next hlen =>
        obtain ⟨entered, hentered, h⟩ := bind_eq_ok.mp h
        have hlen : operand.letters.length = operand.tensor.shape.length := by
          simpa [Labelled.letters] using hlen
        obtain ⟨new, rfl, hnew, hall⟩ := enterAxes_ok hentered
        obtain ⟨more, rfl, hmore, hrest⟩ := ih h
        have hnew : new.map (·.label) = (operand.letters.filter fun c =>
            !(known.map (·.label)).contains c).eraseDups := by
          have hfst : (operand.labels.toList.zip operand.tensor.shape).map (·.1) =
              operand.letters := List.map_fst_zip (Nat.le_of_eq hlen)
          rw [hnew, hfst]
        have hknown : ∀ c ∈ operand.letters, c ∈ (known ++ new).map (·.label) := by
          intro c hc
          rw [List.map_append, List.mem_append, hnew, List.mem_eraseDups, List.mem_filter]
          by_cases hmem : c ∈ known.map (·.label)
          · exact .inl hmem
          · exact .inr ⟨hc, by simpa using hmem⟩
        refine ⟨new ++ more, by rw [List.append_assoc], ?_, ?_⟩
        · rw [List.map_append, hmore, hnew, List.flatMap_cons, List.filter_append,
            List.eraseDups_append]
          congr 2
          rw [List.removeAll, List.filter_filter]
          refine List.filter_congr fun c _ => ?_
          rw [List.map_append, hnew, List.contains_append, Bool.not_or, Bool.and_comm]
          congr 2
          rw [Bool.eq_iff_iff, List.contains_iff_mem, List.mem_eraseDups, List.elem_iff]
        · intro other hother
          rcases List.mem_cons.mp hother with rfl | hother
          · refine ⟨?_, fun c hc => ?_⟩
            · rw [shape_of_entered hlen hall]
              exact List.map_congr_left fun c hc => (extentOf_append (hknown c hc)).symm
            · rw [List.map_append]
              exact List.mem_append_left _ (hknown c hc)
          · exact hrest other hother

theorem outputAxes_ok {output : String} {known : List JointAxis} {labels : List Char}
    {chosen kept : List JointAxis} (h : outputAxes output known labels chosen = .ok kept) :
    ∃ more, kept = chosen ++ more ∧ more.map (·.label) = labels ∧
      more.map (·.extent) = labels.map (extentOf known) := by
  induction labels generalizing chosen with
  | nil =>
      cases h
      exact ⟨[], by simp, rfl, rfl⟩
  | cons c labels ih =>
      rw [outputAxes] at h
      split at h
      · cases h
      · split at h
        next axis haxis =>
            obtain ⟨more, rfl, hlabels, hextents⟩ := ih h
            refine ⟨axis :: more, by simp, ?_, ?_⟩
            · have := List.find?_some haxis
              rw [List.map_cons, hlabels, eq_of_beq this]
            · rw [List.map_cons, List.map_cons, hextents, extentOf, lookup, haxis]
              rfl
        next => cases h

/-- The axes that a join lays out: labels, extents, and the shapes they stand for. -/
theorem jointAxes_spec {output : String} {operands : List (Labelled α)}
    {kept folded : List JointAxis} (h : jointAxes output operands = .ok (kept, folded)) :
    kept.map (·.label) = output.toList ∧
      folded.map (·.label) = foldedLabels output operands ∧
      ∃ extent : Char → Nat,
        (∀ operand ∈ operands, operand.tensor.shape = operand.letters.map extent) ∧
        kept.map (·.extent) = output.toList.map extent ∧
        folded.map (·.extent) = (foldedLabels output operands).map extent := by
  unfold jointAxes at h
  split at h
  · cases h
  · obtain ⟨known, hknown, h⟩ := bind_eq_ok.mp h
    obtain ⟨kept', hkept, h⟩ := bind_eq_ok.mp h
    cases h
    obtain ⟨more, hmore, hlabels, hall⟩ := collectAxes_ok hknown
    obtain ⟨chosen, hchosen, hnames, hextents⟩ := outputAxes_ok hkept
    rw [List.nil_append] at hmore hchosen
    have hlabels : known.map (·.label) = (operands.flatMap Labelled.letters).eraseDups := by
      rw [hmore, hlabels]
      simp
    refine ⟨hchosen ▸ hnames, ?_, extentOf known,
      fun operand hoperand => (hall operand hoperand).1, hchosen ▸ hextents, ?_⟩
    · rw [foldedLabels, ← hlabels, List.filter_map]
      rfl
    · rw [foldedLabels, ← hlabels, List.filter_map, List.map_map]
      refine List.map_congr_left fun axis haxis => ?_
      have hnodup : (known.map (·.label)).Nodup := hlabels ▸ nodup_eraseDups _
      rw [Function.comp_apply, extentOf, lookup_label hnodup (List.mem_of_mem_filter haxis)]
      rfl

theorem outputAxes_distinct {output : String} {known : List JointAxis} {labels : List Char}
    {chosen kept : List JointAxis} (h : outputAxes output known labels chosen = .ok kept) :
    labels.Nodup ∧
      ∀ c ∈ labels, c ∉ chosen.map (·.label) ∧ c ∈ known.map (·.label) := by
  induction labels generalizing chosen with
  | nil => exact ⟨.nil, by simp⟩
  | cons c labels ih =>
      rw [outputAxes] at h
      split at h
      · cases h
      next hnew =>
        split at h
        next axis haxis =>
            obtain ⟨hnodup, hlabels⟩ := ih h
            have hfound := List.find?_some haxis
            have hlabel : axis.label = c := eq_of_beq hfound
            have hchosen : c ∉ chosen.map (·.label) := by simpa using hnew
            refine ⟨List.nodup_cons.mpr ⟨fun hmem => ?_, hnodup⟩, fun d hd => ?_⟩
            · refine (hlabels c hmem).1 ?_
              rw [List.map_append, List.map_singleton, hlabel]
              exact List.mem_append_right _ List.mem_cons_self
            · rcases List.mem_cons.mp hd with rfl | hd
              · exact ⟨hchosen, lookup_isSome_iff.mp (by rw [lookup, haxis]; rfl)⟩
              · obtain ⟨hfresh, hknown⟩ := hlabels d hd
                rw [List.map_append, List.mem_append, not_or] at hfresh
                exact ⟨hfresh.1, hknown⟩
        next => cases h

/-- The output of a join names labels of its operands, each once. -/
theorem jointAxes_output {output : String} {operands : List (Labelled α)}
    {axes : List JointAxis × List JointAxis} (h : jointAxes output operands = .ok axes) :
    output.toList.Nodup ∧ ∀ c ∈ output.toList, c ∈ operands.flatMap Labelled.letters := by
  unfold jointAxes at h
  split at h
  · cases h
  · obtain ⟨known, hknown, h⟩ := bind_eq_ok.mp h
    obtain ⟨kept, hkept, h⟩ := bind_eq_ok.mp h
    obtain ⟨more, hmore, hlabels, -⟩ := collectAxes_ok hknown
    obtain ⟨hnodup, hall⟩ := outputAxes_distinct hkept
    refine ⟨hnodup, fun c hc => ?_⟩
    have hmem := (hall c hc).2
    rw [hmore, List.nil_append, hlabels, List.mem_eraseDups] at hmem
    exact List.mem_of_mem_filter hmem

/-! ## Labels that fit -/

/-- The extents give back the shape of each operand. -/
def Sized (extent : Char → Nat) (operands : List (Labelled α)) : Prop :=
  ∀ operand ∈ operands, operand.tensor.shape = operand.letters.map extent

/-- The extents of the labels that occur are determined. -/
theorem Sized.map_eq {extent extent' : Char → Nat} {operands : List (Labelled α)}
    (h : Sized extent operands) (h' : Sized extent' operands) {labels : List Char}
    (hlabels : ∀ c ∈ labels, ∃ operand ∈ operands, c ∈ operand.letters) :
    labels.map extent = labels.map extent' := by
  refine List.map_congr_left fun c hc => ?_
  obtain ⟨operand, hoperand, hletter⟩ := hlabels c hc
  exact List.map_inj_left.mp ((h operand hoperand).symm.trans (h' operand hoperand)) c hletter

/-- The axes found so far have the extents of their labels. -/
def Carries (extent : Char → Nat) (known : List JointAxis) : Prop :=
  ∀ axis ∈ known, axis.extent = extent axis.label

theorem enterAxes_of_carries {extent : Char → Nat} (shape : Shape) (labels : List Char)
    {known : List JointAxis} (hknown : Carries extent known) :
    ∃ result, enterAxes shape (labels.zip (labels.map extent)) known = .ok result ∧
      Carries extent result := by
  induction labels generalizing known with
  | nil => exact ⟨known, rfl, hknown⟩
  | cons c labels ih =>
      rw [List.map_cons, List.zip_cons_cons, enterAxes]
      split
      next entry hentry =>
          have hlabel := List.find?_some hentry
          have hextent : entry.extent = extent c := by
            rw [hknown entry (List.mem_of_find?_eq_some hentry), eq_of_beq hlabel]
          rw [if_pos hextent]
          exact ih hknown
      next =>
          refine ih fun axis haxis => ?_
          rcases List.mem_append.mp haxis with hmem | hnew
          · exact hknown axis hmem
          · rw [List.mem_singleton.mp hnew]

theorem collectAxes_of_sized {extent : Char → Nat} {operands : List (Labelled α)}
    {known : List JointAxis} (hknown : Carries extent known) (h : Sized extent operands) :
    ∃ result, collectAxes operands known = .ok result := by
  induction operands generalizing known with
  | nil => exact ⟨known, rfl⟩
  | cons operand operands ih =>
      obtain ⟨hshape, hrest⟩ := List.forall_mem_cons.mp h
      have hlen : ¬operand.labels.toList.length ≠ operand.tensor.shape.length := by
        rw [hshape, List.length_map, Labelled.letters]
        simp
      obtain ⟨entered, hentered, hcarries⟩ :=
        enterAxes_of_carries operand.tensor.shape operand.letters hknown
      rw [← hshape] at hentered
      obtain ⟨result, hresult⟩ := ih hcarries hrest
      refine ⟨result, ?_⟩
      rw [collectAxes, if_neg hlen]
      exact bind_eq_ok.mpr ⟨entered, hentered, hresult⟩

theorem outputAxes_of_known (output : String) {known : List JointAxis} {labels : List Char}
    {chosen : List JointAxis} (hnodup : labels.Nodup)
    (hnew : ∀ c ∈ labels, c ∉ chosen.map (·.label))
    (hmem : ∀ c ∈ labels, c ∈ known.map (·.label)) :
    ∃ kept, outputAxes output known labels chosen = .ok kept := by
  induction labels generalizing chosen with
  | nil => exact ⟨chosen, rfl⟩
  | cons c labels ih =>
      rw [List.nodup_cons] at hnodup
      rw [List.forall_mem_cons] at hnew hmem
      obtain ⟨axis, haxis⟩ := Option.isSome_iff_exists.mp (lookup_isSome_iff.mpr hmem.1)
      have hfound := List.find?_some haxis
      have hlabel : axis.label = c := eq_of_beq hfound
      have hfresh : ¬(chosen.any (·.label == c)) = true := by simpa using hnew.1
      rw [lookup] at haxis
      rw [outputAxes, if_neg hfresh, haxis]
      refine ih hnodup.2 (fun d hd hchosen => ?_) hmem.2
      rw [List.map_append, List.mem_append, List.map_singleton, List.mem_singleton, hlabel]
        at hchosen
      rcases hchosen with hchosen | rfl
      · exact hnew.2 d hd hchosen
      · exact hnodup.1 hd

/-- Labels are accepted if some extents give back all shapes and the output names known
labels, each once. -/
theorem jointAxes_of_sized {extent : Char → Nat} {output : String}
    {operands : List (Labelled α)} (hne : operands ≠ []) (hsized : Sized extent operands)
    (hnodup : output.toList.Nodup)
    (hmem : ∀ c ∈ output.toList, c ∈ operands.flatMap Labelled.letters) :
    ∃ axes, jointAxes output operands = .ok axes := by
  have hcarries : Carries extent [] := fun axis haxis => by cases haxis
  obtain ⟨known, hknown⟩ := collectAxes_of_sized hcarries hsized
  obtain ⟨more, hmore, hlabels, -⟩ := collectAxes_ok hknown
  have hnew : ∀ c ∈ output.toList, c ∉ ([] : List JointAxis).map (·.label) := by simp
  have hall : ∀ c ∈ output.toList, c ∈ known.map (·.label) := by
    intro c hc
    rw [hmore, List.nil_append, hlabels, List.mem_eraseDups, List.mem_filter]
    exact ⟨hmem c hc, rfl⟩
  obtain ⟨kept, hkept⟩ := outputAxes_of_known output hnodup hnew hall
  have hnonempty : ¬operands.isEmpty = true := by simpa using hne
  refine ⟨(kept, known.filter fun axis => !output.toList.contains axis.label), ?_⟩
  rw [jointAxes, if_neg hnonempty]
  exact bind_eq_ok.mpr ⟨known, hknown, bind_eq_ok.mpr ⟨kept, hkept, rfl⟩⟩

/-! ## What the layout depends on -/

/-- Operands that carry the same labels on tensors of one shape. -/
def SameLayout (a : Labelled α) (b : Labelled β) : Prop :=
  a.labels = b.labels ∧ a.tensor.shape = b.tensor.shape

variable {as : List (Labelled α)} {bs : List (Labelled β)}

theorem collectAxes_congr (h : List.Forall₂ SameLayout as bs) (known : List JointAxis) :
    collectAxes as known = collectAxes bs known := by
  induction h generalizing known with
  | nil => rfl
  | cons hab _ ih =>
      rw [collectAxes, collectAxes, hab.1, hab.2]
      simp only [ih]

theorem jointAxes_congr (h : List.Forall₂ SameLayout as bs) (output : String) :
    jointAxes output as = jointAxes output bs := by
  have hempty : as.isEmpty = bs.isEmpty := by
    cases h <;> rfl
  rw [jointAxes, jointAxes, collectAxes_congr h, hempty]

theorem jointLabels_congr (h : List.Forall₂ SameLayout as bs) (output : String) :
    jointLabels output as = jointLabels output bs := by
  have hletters : as.flatMap Labelled.letters = bs.flatMap Labelled.letters := by
    induction h with
    | nil => rfl
    | cons hab _ ih =>
        rw [List.flatMap_cons, List.flatMap_cons, ih, Labelled.letters, Labelled.letters, hab.1]
  rw [jointLabels, jointLabels, foldedLabels, foldedLabels, hletters]

end Join

end TensorLogic
