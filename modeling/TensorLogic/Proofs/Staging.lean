import TensorLogic.Proofs.Truths

/-!
# Contractions in two stages

A quantifier may be pushed inwards to the operands that mention its label. For
contractions by `any` of `and`, or by `all` of `or`, this means that some of the
operands may be contracted first, as long as the intermediate tensor keeps each label
that is still asked for behind it. Main statement: the two-stage contraction and the
contraction of all operands at once have the same cells (`staged_reduce`).

The two joint index spaces have nothing in common but the extents of their labels, and
the labels folded in the first stage may have extent 0. The proof goes through
assignments instead: one of the second stage and one of the first agree on the labels
that the intermediate tensor keeps, so together they are one assignment.
-/

namespace TensorLogic

section Staged

variable {first behind : List (Labelled Bool)} {mid output : String}

/-- The labels that the first stage may not fold: those of its operands that the
second stage, or the output, asks for. -/
def Keeps (mid output : String) (first behind : List (Labelled Bool)) : Prop :=
  ∀ operand ∈ first, ∀ c ∈ operand.letters,
    (c ∈ output.toList ∨ ∃ other ∈ behind, c ∈ other.letters) → c ∈ mid.toList

/-- The first assignment on the labels of the operands, the second on all others. -/
def overlay (operands : List (Labelled Bool)) (π₀ π₁ : Char → Nat) (c : Char) : Nat :=
  if c ∈ operands.flatMap Labelled.letters then π₀ c else π₁ c

theorem overlay_of_mem {π₀ π₁ : Char → Nat} {operand : Labelled Bool} (h : operand ∈ first)
    {c : Char} (hc : c ∈ operand.letters) : overlay first π₀ π₁ c = π₀ c :=
  if_pos (List.mem_flatMap.mpr ⟨operand, h, hc⟩)

/-- On the labels asked for behind the first stage the two assignments agree, so the
overlay is the second one there. -/
theorem Keeps.overlay_eq (hkeeps : Keeps mid output first behind) {π₀ π₁ : Char → Nat}
    (hagree : ∀ c ∈ mid.toList, π₀ c = π₁ c) {c : Char}
    (hc : c ∈ output.toList ∨ ∃ other ∈ behind, c ∈ other.letters) :
    overlay first π₀ π₁ c = π₁ c := by
  rw [overlay]
  split
  next hmem =>
      obtain ⟨operand, hoperand, hletter⟩ := List.mem_flatMap.mp hmem
      exact hagree c (hkeeps operand hoperand c hletter hc)
  next => rfl

variable {agg : Aggregate} {op : Connective} {v : Bool} {m r₁ r₂ : Tensor Bool}
  {extent ρ : Char → Nat}

/-- The two stages look for one assignment. -/
theorem Quantifies.exists_staged_iff (hq : Quantifies agg op v)
    (hkeeps : Keeps mid output first behind) (hsized : Join.Sized extent (first ++ behind))
    (hm : (truthValues.reduce agg mid op first).value = .ok m) :
    (∃ π, Join.Extends output (m.named mid :: behind) extent ρ π ∧
        ∀ operand ∈ m.named mid :: behind, operand.cellAt π = .ok v) ↔
      ∃ π, Join.Extends output (first ++ behind) extent ρ π ∧
        ∀ operand ∈ first ++ behind, operand.cellAt π = .ok v := by
  have hfirst : Join.Sized extent first := fun operand h =>
    hsized operand (List.mem_append_left _ h)
  constructor
  · rintro ⟨π₁, ⟨houtput, hwithin⟩, hcells⟩
    rw [List.forall_mem_cons] at hwithin hcells
    obtain ⟨b, hget, hb⟩ := hq.reduce_iff hm hfirst hwithin.1
    have hv : b = v := Except.ok.inj (hget.symm.trans hcells.1)
    obtain ⟨π₀, ⟨hagree, hwithin₀⟩, hcells₀⟩ := hb.mp hv
    have hfirst_eq : ∀ operand ∈ first, ∀ c ∈ operand.letters, overlay first π₀ π₁ c = π₀ c :=
      fun operand h c hc => overlay_of_mem h hc
    have hbehind_eq : ∀ operand ∈ behind, ∀ c ∈ operand.letters,
        overlay first π₀ π₁ c = π₁ c :=
      fun operand h c hc => hkeeps.overlay_eq hagree (.inr ⟨operand, h, hc⟩)
    refine ⟨overlay first π₀ π₁, ⟨fun c hc => ?_, fun operand h => ?_⟩, fun operand h => ?_⟩
    · rw [hkeeps.overlay_eq hagree (.inl hc), houtput c hc]
    · intro c hc
      rcases List.mem_append.mp h with h | h
      · rw [hfirst_eq operand h c hc]
        exact hwithin₀ operand h c hc
      · rw [hbehind_eq operand h c hc]
        exact hwithin.2 operand h c hc
    · rcases List.mem_append.mp h with h | h
      · rw [Labelled.cellAt_congr (hfirst_eq operand h), hcells₀ operand h]
      · rw [Labelled.cellAt_congr (hbehind_eq operand h), hcells.2 operand h]
  · rintro ⟨π, ⟨houtput, hwithin⟩, hcells⟩
    rw [List.forall_mem_append] at hwithin hcells
    have hmid : Within extent mid.toList π := by
      intro c hc
      obtain ⟨operand, h, hletter⟩ := (Join.output_of_reduce (reduce_lifted hm)).2 c hc
      exact hwithin.1 operand h c hletter
    obtain ⟨b, hget, hb⟩ := hq.reduce_iff hm hfirst hmid
    have hv : b = v := hb.mpr ⟨π, ⟨fun _ _ => rfl, hwithin.1⟩, hcells.1⟩
    exact ⟨π, ⟨houtput, List.forall_mem_cons.mpr ⟨hmid, hwithin.2⟩⟩,
      List.forall_mem_cons.mpr ⟨hv ▸ hget, hcells.2⟩⟩

theorem Quantifies.staged (hq : Quantifies agg op v) (hkeeps : Keeps mid output first behind)
    (hm : (truthValues.reduce agg mid op first).value = .ok m)
    (h₁ : (truthValues.reduce agg output op (m.named mid :: behind)).value = .ok r₁)
    (h₂ : (truthValues.reduce agg output op (first ++ behind)).value = .ok r₂) :
    r₁.shape = r₂.shape ∧
      ∀ index ∈ r₁.shape.indices, ∃ b, r₁.get index = .ok b ∧ r₂.get index = .ok b := by
  obtain ⟨extent, hsized, -⟩ := Join.reduce_cells (reduce_lifted h₂)
  have hfirst : Join.Sized extent first := fun operand h =>
    hsized operand (List.mem_append_left _ h)
  have hmid := (Join.reduce_sized (reduce_lifted hm) hfirst).1
  have hstaged : Join.Sized extent (m.named mid :: behind) :=
    List.forall_mem_cons.mpr ⟨hmid, fun operand h => hsized operand (List.mem_append_right _ h)⟩
  have hshape₁ := (Join.reduce_sized (reduce_lifted h₁) hstaged).1
  have hshape₂ := (Join.reduce_sized (reduce_lifted h₂) hsized).1
  refine ⟨hshape₁.trans hshape₂.symm, fun index hindex => ?_⟩
  rw [hshape₁] at hindex
  obtain ⟨ρ, rfl⟩ := exists_assignment (Join.output_of_reduce (reduce_lifted h₂)).1
    ((Shape.length_of_mem_indices hindex).trans (List.length_map _))
  rw [map_mem_indices] at hindex
  obtain ⟨b₁, hget₁, hb₁⟩ := hq.reduce_iff h₁ hstaged hindex
  obtain ⟨b₂, hget₂, hb₂⟩ := hq.reduce_iff h₂ hsized hindex
  have hiff : b₁ = v ↔ b₂ = v := by
    rw [hb₁, hb₂, hq.exists_staged_iff hkeeps hsized hm]
  exact ⟨b₁, hget₁, eq_of_eq_iff hiff ▸ hget₂⟩

/-- A contraction by `any` of `and`, or by `all` of `or`, may be carried out in two
stages. That `first` is not empty and that `mid` names labels of it, each once, is what
the first stage checks. -/
theorem staged_reduce (hq : (agg = .any ∧ op = .and) ∨ (agg = .all ∧ op = .or))
    (hkeeps : Keeps mid output first behind)
    (hm : (truthValues.reduce agg mid op first).value = .ok m)
    (h₁ : (truthValues.reduce agg output op (m.named mid :: behind)).value = .ok r₁)
    (h₂ : (truthValues.reduce agg output op (first ++ behind)).value = .ok r₂) :
    r₁.shape = r₂.shape ∧
      ∀ index ∈ r₁.shape.indices, ∃ b, r₁.get index = .ok b ∧ r₂.get index = .ok b := by
  rcases hq with ⟨rfl, rfl⟩ | ⟨rfl, rfl⟩
  · exact Quantifies.any.staged hkeeps hm h₁ h₂
  · exact Quantifies.all.staged hkeeps hm h₁ h₂

end Staged

/-- A set of elements, labelled as the end of a chain of relations. -/
def chainEnd : List (Labelled Bool) :=
  [Tensor.named { shape := [2], strides := [1], offset := 0, buffer := #[false, true] } "z"]

theorem chain_keeps : Keeps "xz" "x" Join.composed chainEnd := by
  rintro operand - c - (hc | ⟨other, hother, hc⟩)
  · obtain rfl : c = 'x' := List.mem_singleton.mp hc
    decide
  · obtain rfl := List.mem_singleton.mp hother
    obtain rfl : c = 'z' := List.mem_singleton.mp hc
    decide

theorem staged_reduce_chain :
    ∃ m r₁ r₂,
      (truthValues.reduce .any "xz" .and Join.composed).value = .ok m ∧
      (truthValues.reduce .any "x" .and (m.named "xz" :: chainEnd)).value = .ok r₁ ∧
      (truthValues.reduce .any "x" .and (Join.composed ++ chainEnd)).value = .ok r₂ ∧
      r₁.shape = [2] ∧
      ∀ index ∈ r₁.shape.indices, ∃ b, r₁.get index = .ok b ∧ r₂.get index = .ok b := by
  refine ⟨_, _, _, rfl, rfl, rfl, rfl, ?_⟩
  exact (staged_reduce (.inl ⟨rfl, rfl⟩) chain_keeps rfl rfl rfl).2

end TensorLogic
