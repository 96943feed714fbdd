import TensorLogic.Proofs.Complete
import TensorLogic.Proofs.Declared

/-!
# The enumeration finds every solution once

What a session says about the declared cells is the front part of its models. While an
enumeration runs, the models that are left are those of the compiled problem whose front
part has not been found yet (`Enumerating`): a blocking clause takes away exactly the
models with one front part, however the gates behind it come out. So each step finds a
new front part, of which there are only so many, and the enumeration comes to an end
when none is left.
-/

namespace TensorLogic

open Cnf Faithful

/-! ## Blocking clauses -/

/-- The literals that the assignment makes false. -/
def blocked (a : Assignment) (ls : List Literal) : Clause :=
  ls.map fun l => if a.satisfies l then -l else l

theorem blockingClause_eq {a : Assignment} {ls : List Literal}
    (howned : ∀ l ∈ ls, owns a.variables l) : blockingClause a ls = .ok (blocked a ls) := by
  induction ls with
  | nil => rfl
  | cons l ls ih =>
      obtain ⟨hl, hls⟩ := List.forall_mem_cons.mp howned
      rw [blockingClause, Assignment.value_eq hl, ih hls]
      rfl

theorem owns_blocked {count : Nat} {a : Assignment} {ls : List Literal}
    (howned : ∀ l ∈ ls, owns count l) : (blocked a ls).all (owns count) := by
  rw [blocked, List.all_map, List.all_eq_true]
  intro l hl
  simp only [Function.comp_apply]
  split
  · exact owns_neg (howned l hl)
  · exact howned l hl

/-- The clause rules out those who agree on the literals, and nobody else. -/
theorem any_blocked_iff {a b : Assignment} {ls : List Literal}
    (howned : ∀ l ∈ ls, owns b.variables l) :
    (blocked a ls).any b.satisfies ↔ ls.map b.satisfies ≠ ls.map a.satisfies := by
  induction ls with
  | nil => simp [blocked]
  | cons l ls ih =>
      obtain ⟨hl, hls⟩ := List.forall_mem_cons.mp howned
      have hhead : b.satisfies (if a.satisfies l then -l else l) =
          (b.satisfies l != a.satisfies l) := by
        cases a.satisfies l
        · simp
        · simp [Assignment.satisfies_neg hl]
      rw [blocked, List.map_cons, List.any_cons, hhead, ← blocked, Bool.or_eq_true, ih hls]
      simp only [List.map_cons, ne_eq, List.cons.injEq, not_and_or, bne_iff_ne]

/-! ## One step -/

variable {p : Problem} {literals : Bindings Literal} {F : Cnf}

theorem Bindings.Listed.literalList_eq {declared : List (String × Shape)}
    {cells : List Literal} (h : Listed declared literals.entries cells) :
    literals.literalList = .ok cells := by
  obtain ⟨rows, hrows, hcells⟩ := h.mapM_cells
  exact bind_eq_ok.mpr ⟨rows, hrows, congrArg Except.ok hcells⟩

theorem Compiled.literalList_eq (hc : Compiled p literals F) :
    literals.literalList = .ok (literalsFrom 1 p.declaredCells) :=
  hc.listed.literalList_eq

/-- A step that is given a model of which all cells can be read. The session is asked for the
clause that rules the model out, unless there is no cell. -/
theorem Models.next_of_answer {σ : Type} [Session σ] {m : Models} {s s' : σ} {a : Assignment}
    {b : Solution} {ls : List Literal} (hopen : m.exhausted = false)
    (hanswer : Models.answer s = .ok (.ok (some a)) s') (hb : decode m.literals a = .ok b)
    (hlist : m.literals.literalList = .ok ls) (howned : ∀ l ∈ ls, owns a.variables l) :
    (ls = [] → m.next s =
      .ok (.solution b, { m with found := m.found + 1, exhausted := true }) s') ∧
    ∀ s₂, ls ≠ [] → Session.ensure (blocked a ls) s' = .ok () s₂ →
      m.next s = .ok (.solution b, { m with found := m.found + 1 }) s₂ := by
  simp only [Models.next, hopen]
  constructor
  · rintro rfl
    refine Run.bind_eq_ok.mpr ⟨_, s', hanswer, ?_⟩
    refine Run.lift_bind_eq_ok.mpr ⟨b, hb, ?_⟩
    exact Run.lift_bind_eq_ok.mpr ⟨[], hlist, rfl⟩
  · intro s₂ hne hensure
    obtain ⟨first, rest, rfl⟩ := List.exists_cons_of_ne_nil hne
    refine Run.bind_eq_ok.mpr ⟨_, s', hanswer, ?_⟩
    refine Run.lift_bind_eq_ok.mpr ⟨b, hb, ?_⟩
    refine Run.lift_bind_eq_ok.mpr ⟨first :: rest, hlist, ?_⟩
    refine Run.lift_bind_eq_ok.mpr ⟨_, blockingClause_eq howned, ?_⟩
    exact Run.bind_eq_ok.mpr ⟨(), s₂, hensure, rfl⟩

variable {σ : Type} [Session σ] [CompleteSession σ]

theorem Models.answer_spec (s : σ) : ∃ answer s', Models.answer s = .ok (.ok answer) s' ∧
    formula s' = formula s ∧
    ((∃ a, answer = some a ∧ (formula s).isModel a) ∨
      answer = none ∧ ∀ a, ¬ (formula s).isModel a) := by
  obtain ⟨answer, s', hsolve, hspec⟩ := CompleteSession.solve_spec s
  refine ⟨answer, s', ?_, hspec⟩
  simp only [Models.answer, tryCatch, tryCatchThe, MonadExceptOf.tryCatch, EStateM.tryCatch,
    Functor.map, EStateM.map, hsolve]

/-- Where an enumeration stands that has found the given front parts. -/
structure Enumerating (p : Problem) (literals : Bindings Literal) (F : Cnf) (m : Models)
    (found : List (List Bool)) (s : σ) : Prop where
  literals_eq : m.literals = literals
  nodup : found.Nodup
  sound : ∀ cells ∈ found, ∃ a, F.isModel a ∧ a.front p.declaredCells = cells
  /-- The models that are left. -/
  left : m.exhausted = false → (formula s).variables = F.variables ∧
    ∀ a, (formula s).isModel a ↔ F.isModel a ∧ a.front p.declaredCells ∉ found
  complete : m.exhausted = true → ∀ a, F.isModel a → a.front p.declaredCells ∈ found

namespace Enumerating

variable {m : Models} {found : List (List Bool)} {s : σ}

theorem start (hs : formula s = F) :
    Enumerating p literals F { literals } [] s where
  literals_eq := rfl
  nodup := .nil
  sound := by simp
  left _ := by simp [hs]
  complete h := by cases h

/-- There are no more solutions than there are ways to fill the declared cells. -/
theorem length_le (h : Enumerating p literals F m found s) :
    found.length ≤ Nat.pow 2 p.declaredCells := by
  refine length_le_of_nodup h.nodup fun cells hcells => ?_
  obtain ⟨a, -, rfl⟩ := h.sound cells hcells
  exact a.length_front _

theorem of_formula {s' : σ} (h : Enumerating p literals F m found s)
    (hs' : formula s' = formula s) : Enumerating p literals F m found s' where
  literals_eq := h.literals_eq
  nodup := h.nodup
  sound := h.sound
  left hopen := by
    rw [hs']
    exact h.left hopen
  complete := h.complete

section

variable {a : Assignment} (h : Enumerating p literals F m found s)
  (hopen : m.exhausted = false) (ha : (formula s).isModel a)

include h hopen ha

theorem isModel : F.isModel a :=
  (((h.left hopen).2 a).mp ha).1

theorem nodup_push : (found ++ [a.front p.declaredCells]).Nodup := by
  have hnew : a.front p.declaredCells ∉ found := (((h.left hopen).2 a).mp ha).2
  exact List.nodup_append_comm.mp (List.nodup_cons.mpr ⟨hnew, h.nodup⟩)

theorem sound_push : ∀ cells ∈ found ++ [a.front p.declaredCells],
    ∃ a, F.isModel a ∧ a.front p.declaredCells = cells := by
  rw [List.forall_mem_append, List.forall_mem_singleton]
  exact ⟨h.sound, a, h.isModel hopen ha, rfl⟩

/-- With no cell to rule out, one solution is all there is. -/
theorem found_last (hcells : p.declaredCells = 0) :
    Enumerating p literals F { m with found := m.found + 1, exhausted := true }
      (found ++ [a.front p.declaredCells]) s where
  literals_eq := h.literals_eq
  nodup := h.nodup_push hopen ha
  sound := h.sound_push hopen ha
  left hopen := by cases hopen
  complete _ b _ := by
    have hb := b.length_front p.declaredCells
    have ha := a.length_front p.declaredCells
    rw [hcells, List.length_eq_zero_iff] at ha hb
    rw [hcells, ha, hb]
    exact List.mem_append_right _ List.mem_cons_self

/-- The clause over the declared cells takes away what has just been found. -/
theorem found_next (hc : Compiled p literals F) {s' : σ}
    (hs' : formula s' = (formula s).ensure (blocked a (literalsFrom 1 p.declaredCells))) :
    Enumerating p literals F { m with found := m.found + 1 }
      (found ++ [a.front p.declaredCells]) s' where
  literals_eq := h.literals_eq
  nodup := h.nodup_push hopen ha
  sound := h.sound_push hopen ha
  left _ := by
    obtain ⟨hvars, hleft⟩ := h.left hopen
    rw [hs']
    refine ⟨hvars, fun b => ?_⟩
    rw [isModel_ensure, hleft, List.mem_append, not_or, List.mem_singleton, and_assoc]
    refine and_congr_right fun hb => and_congr_right fun _ => any_blocked_iff fun l hl => ?_
    have hcount : p.declaredCells ≤ b.variables := (isModel_iff.mp hb).1 ▸ hc.covers
    exact owns_mono hcount (owns_of_mem_literalsFrom hl)
  complete hclosed := by simp [hopen] at hclosed

end

/-- A step that is given a model delivers what the model lists. -/
theorem next_of_model (hc : Compiled p literals F) {a : Assignment} {s' : σ}
    (h : Enumerating p literals F m found s') (hopen : m.exhausted = false)
    (hanswer : Models.answer s = .ok (.ok (some a)) s') (ha : (formula s').isModel a) :
    ∃ b cells m' s₂, m.next s = .ok (.solution b, m') s₂ ∧
      Bindings.Listed p.shapes.entries b.entries cells ∧
      Enumerating p literals F m' (found ++ [cells]) s₂ := by
  have hvars : a.variables = (formula s').variables := (isModel_iff.mp ha).1
  have hcount : p.declaredCells ≤ a.variables :=
    (isModel_iff.mp (h.isModel hopen ha)).1 ▸ hc.covers
  have howned : ∀ l ∈ literalsFrom 1 p.declaredCells, owns a.variables l :=
    fun l hl => owns_mono hcount (owns_of_mem_literalsFrom hl)
  obtain ⟨b, hb, hlisted⟩ := decode_ok hc.fillable hc.listed hcount
  rw [← h.literals_eq] at hb
  have hlist : m.literals.literalList = .ok (literalsFrom 1 p.declaredCells) := by
    rw [h.literals_eq, hc.literalList_eq]
  obtain ⟨hlast, hnext⟩ := Models.next_of_answer hopen hanswer hb hlist howned
  by_cases hlits : literalsFrom 1 p.declaredCells = []
  · have hzero : p.declaredCells = 0 := by
      rw [← length_literalsFrom 1 p.declaredCells, hlits, List.length_nil]
    exact ⟨b, _, _, s', hlast hlits, hlisted, h.found_last hopen ha hzero⟩
  · obtain ⟨s₂, hensure, hensured⟩ := ensure_spec s'
      (blocked a (literalsFrom 1 p.declaredCells)) (owns_blocked (hvars ▸ howned))
    exact ⟨b, _, _, s₂, hnext s₂ hlits hensure, hlisted, h.found_next hopen ha hc hensured⟩

/-- A step delivers a solution that was not found before, or there is none left. -/
theorem next_spec (hc : Compiled p literals F) (h : Enumerating p literals F m found s) :
    (∃ m' s', m.next s = .ok (.finished, m') s' ∧
      ∀ a, F.isModel a → a.front p.declaredCells ∈ found) ∨
    ∃ b cells m' s', m.next s = .ok (.solution b, m') s' ∧
      Bindings.Listed p.shapes.entries b.entries cells ∧
      Enumerating p literals F m' (found ++ [cells]) s' := by
  cases hopen : m.exhausted with
  | true =>
      refine .inl ⟨m, s, ?_, h.complete hopen⟩
      simp only [Models.next, hopen]
      rfl
  | false =>
      obtain ⟨answer, s', hanswer, hformula, hspec⟩ := Models.answer_spec s
      have h := h.of_formula hformula
      rw [← hformula] at hspec
      rcases hspec with ⟨a, rfl, ha⟩ | ⟨rfl, hnone⟩
      · exact .inr (h.next_of_model hc hopen hanswer ha)
      · refine .inl ⟨{ m with exhausted := true }, s', ?_, fun a ha => ?_⟩
        · simp only [Models.next, hopen]
          exact Run.bind_eq_ok.mpr ⟨_, s', hanswer, rfl⟩
        · by_contra hfront
          exact hnone a (((h.left hopen).2 a).mpr ⟨ha, hfront⟩)

/-- The run of all steps: it delivers what had not been found before, each solution
once, and ends before the fuel does. -/
theorem foldAll_spec {β : Type} (step : β → Solution → β) (hc : Compiled p literals F)
    {fuel : Nat} (h : Enumerating p literals F m found s)
    (hfuel : Nat.pow 2 p.declaredCells < fuel + found.length) (acc : β) :
    ∃ sols all s', Models.foldAll step fuel m acc s = .ok (sols.foldl step acc) s' ∧
      List.Forall₂ (fun (b : Solution) cells => Bindings.Listed p.shapes.entries b.entries cells)
        sols all ∧
      (found ++ all).Nodup ∧
      ∀ cells, cells ∈ found ++ all ↔ ∃ a, F.isModel a ∧ a.front p.declaredCells = cells := by
  induction fuel generalizing m found s acc with
  | zero =>
      have := h.length_le
      omega
  | succ fuel ih =>
      rw [Models.foldAll]
      rcases h.next_spec hc with ⟨m', s', hnext, hall⟩ | ⟨b, cells, m', s', hnext, hlisted, h'⟩
      · refine ⟨[], [], s', Run.bind_eq_ok.mpr ⟨_, s', hnext, rfl⟩, .nil, ?_, fun cells => ?_⟩
        · rw [List.append_nil]
          exact h.nodup
        · rw [List.append_nil]
          exact ⟨h.sound cells, fun ⟨a, ha, hcells⟩ => hcells ▸ hall a ha⟩
      · have hfuel' : Nat.pow 2 p.declaredCells < fuel + (found ++ [cells]).length := by
          rw [List.length_append, List.length_singleton]
          omega
        obtain ⟨sols, all, s₂, hrun, hsols, hnodup, hexact⟩ := ih h' hfuel' (step acc b)
        rw [List.append_assoc, List.singleton_append] at hnodup hexact
        refine ⟨b :: sols, cells :: all, s₂, ?_, .cons hlisted hsols, hnodup, hexact⟩
        exact Run.bind_eq_ok.mpr ⟨_, s', hnext, hrun⟩

end Enumerating

/-! ## All solutions -/

theorem thenClear_ok {α σ : Type} [Session σ] {x : Run σ α} {a : α} {s s' : σ}
    (h : x s = .ok a s') : Problem.thenClear x s = .ok a (Session.clear s') := by
  simp only [Problem.thenClear, tryCatch, tryCatchThe, MonadExceptOf.tryCatch,
    EStateM.tryCatch, bind, EStateM.bind, h]
  rfl

theorem thenClear_refused {α σ : Type} [Session σ] {x : Run σ α} {cause : Error} {s s' : σ}
    (h : x s = .error (.refused cause) s') :
    Problem.thenClear x s = .error (.refused cause) (Session.clear s') := by
  simp only [Problem.thenClear, tryCatch, tryCatchThe, MonadExceptOf.tryCatch,
    EStateM.tryCatch, bind, EStateM.bind, h]
  rfl

/-- Bindings that list different cells are not equal. -/
theorem pairwise_of_nodup {sols : List Solution} {all : List (List Bool)}
    (hlisted : List.Forall₂
      (fun (b : Solution) cells => Bindings.Listed p.shapes.entries b.entries cells) sols all)
    (hnodup : all.Nodup) : sols.Pairwise fun b b' => Bindings.equal b b' = .ok false := by
  induction hlisted with
  | nil => exact .nil
  | @cons b cells sols all hb hrest ih =>
      obtain ⟨hnew, hnodup⟩ := List.nodup_cons.mp hnodup
      refine List.pairwise_cons.mpr ⟨fun b' hb' => ?_, ih hnodup⟩
      obtain ⟨cells', hcells', hlisted'⟩ := (exists_of_forall₂ hrest).1 b' hb'
      rw [Bindings.equal_eq hb hlisted', Except.ok.injEq, beq_eq_false_iff_ne]
      exact fun heq => hnew (heq ▸ hcells')

/-- The list has the solutions of the compiled problem, each once. -/
structure AllSolutions (p : Problem) (F : Cnf) (sols : List Solution)
    (all : List (List Bool)) : Prop where
  listed : List.Forall₂
    (fun (b : Solution) cells => Bindings.Listed p.shapes.entries b.entries cells) sols all
  nodup : all.Nodup
  exact : ∀ cells, cells ∈ all ↔ ∃ a, F.isModel a ∧ a.front p.declaredCells = cells

theorem foldSolutions_spec {β : Type} (step : β → Solution → β) (acc : β) {s : σ}
    (hc : Compiled p literals (formula s)) :
    ∃ sols all s', Models.foldSolutions { literals } step acc s = .ok (sols.foldl step acc) s' ∧
      AllSolutions p (formula s) sols all := by
  have hfuel : Nat.pow 2 p.declaredCells <
      Nat.pow 2 (literalsFrom 1 p.declaredCells).length + 1 + ([] : List (List Bool)).length := by
    rw [length_literalsFrom]
    exact Nat.lt_succ_self _
  obtain ⟨sols, all, s', hrun, hlisted, hnodup, hexact⟩ :=
    (Enumerating.start rfl).foldAll_spec step hc hfuel acc
  refine ⟨sols, all, s', ?_, hlisted, hnodup, hexact⟩
  exact Run.lift_bind_eq_ok.mpr ⟨_, hc.literalList_eq, hrun⟩

namespace AllSolutions

variable {sols : List Solution} {all : List (List Bool)}

theorem length_le (h : AllSolutions p F sols all) :
    sols.length ≤ Nat.pow 2 p.declaredCells := by
  rw [h.listed.length_eq]
  refine length_le_of_nodup h.nodup fun cells hcells => ?_
  obtain ⟨a, -, rfl⟩ := (h.exact cells).mp hcells
  exact a.length_front _

theorem fit (h : AllSolutions p F sols all) {b : Solution} (hb : b ∈ sols) : b.Fit p.shapes := by
  obtain ⟨cells, -, hlisted⟩ := (exists_of_forall₂ h.listed).1 b hb
  exact hlisted.fit

theorem check_eq (h : AllSolutions p F sols all) (hc : Compiled p literals F) {b : Solution}
    (hb : b ∈ sols) : p.check b = .ok true := by
  obtain ⟨cells, hcells, hlisted⟩ := (exists_of_forall₂ h.listed).1 b hb
  exact (hc.check_iff hlisted).mpr ((h.exact cells).mp hcells)

/-- A solution comes up exactly if the formula holds of it. -/
theorem mem_iff (h : AllSolutions p F sols all) (hc : Compiled p literals F) {b : Solution}
    (hb : b.Fit p.shapes) :
    (∃ m ∈ sols, Bindings.equal m b = .ok true) ↔ p.check b = .ok true := by
  obtain ⟨cells, hcells⟩ := Bindings.Listed.exists_of_fit hb
  obtain ⟨hleft, hright⟩ := exists_of_forall₂ h.listed
  rw [hc.check_iff hcells, ← h.exact]
  constructor
  · rintro ⟨m, hm, hequal⟩
    obtain ⟨others, hothers, hlisted⟩ := hleft m hm
    rw [Bindings.equal_eq hlisted hcells, Except.ok.injEq, beq_iff_eq] at hequal
    exact hequal ▸ hothers
  · intro hmem
    obtain ⟨m, hm, hlisted⟩ := hright cells hmem
    exact ⟨m, hm, by rw [Bindings.equal_eq hlisted hcells, beq_self_eq_true]⟩

theorem pairwise (h : AllSolutions p F sols all) :
    sols.Pairwise fun b b' => Bindings.equal b b' = .ok false :=
  pairwise_of_nodup h.listed h.nodup

end AllSolutions

/-- Behind a compilation, solving for all solutions returns them. -/
theorem solveAll_spec {s s' : σ} (hlinear : p.formula.linear)
    (hcompile : p.compile s = .ok literals s') :
    ∃ sols all s'', p.solveAll s = .ok sols.toArray s'' ∧ Compiled p literals (formula s') ∧
      AllSolutions p (formula s') sols all := by
  have hc := compile_spec hlinear hcompile
  obtain ⟨sols, all, s₂, hrun, hall⟩ := foldSolutions_spec Array.push #[] hc
  rw [List.foldl_push_eq_append', Array.empty_append] at hrun
  refine ⟨sols, all, Session.clear s₂, ?_, hc, hall⟩
  refine thenClear_ok (Run.bind_eq_ok.mpr ⟨{ literals }, s', ?_, hrun⟩)
  exact Run.bind_eq_ok.mpr ⟨literals, s', hcompile, rfl⟩

/-- A single solution, or none if the formula holds of nothing that fits. -/
theorem solveOne_spec {s s' : σ} (hlinear : p.formula.linear)
    (hcompile : p.compile s = .ok literals s') :
    ∃ answer s'', p.solveOne s = .ok answer s'' ∧
      ((∃ b : Solution, answer = some b ∧ b.Fit p.shapes ∧ p.check b = .ok true) ∨
        answer = none ∧ ∀ b : Solution, b.Fit p.shapes → p.check b ≠ .ok true) := by
  have hc := compile_spec hlinear hcompile
  obtain ⟨answer, s₂, hsolve, -, hspec⟩ := CompleteSession.solve_spec s'
  rcases hspec with ⟨a, rfl, ha⟩ | ⟨rfl, hnone⟩
  · have hcount : p.declaredCells ≤ a.variables := (isModel_iff.mp ha).1 ▸ hc.covers
    obtain ⟨b, hb, hlisted⟩ := decode_ok hc.fillable hc.listed hcount
    refine ⟨some b, s₂, ?_, .inl ⟨b, rfl, hlisted.fit, (hc.check_iff hlisted).mpr ⟨a, ha, rfl⟩⟩⟩
    refine Run.bind_eq_ok.mpr ⟨literals, s', hcompile, ?_⟩
    refine Run.bind_eq_ok.mpr ⟨some a, s₂, hsolve, ?_⟩
    exact Run.lift_bind_eq_ok.mpr ⟨b, hb, rfl⟩
  · refine ⟨none, s₂, ?_, .inr ⟨rfl, fun b hb hcheck => ?_⟩⟩
    · refine Run.bind_eq_ok.mpr ⟨literals, s', hcompile, ?_⟩
      exact Run.bind_eq_ok.mpr ⟨none, s₂, hsolve, rfl⟩
    · obtain ⟨cells, hcells⟩ := Bindings.Listed.exists_of_fit hb
      obtain ⟨a, ha, -⟩ := (hc.check_iff hcells).mp hcheck
      exact hnone a ha

/-- Solving for all solutions ends after at most as many as there are ways to fill the
declared cells. No two of them are equal, and tensors that fit the declarations are among
them exactly if the formula holds of them. Solving for one, in any session, gives one of
them, or none if there are none. -/
theorem solveAll_exact {τ : Type} [Session τ] [CompleteSession τ]
    (hlinear : p.formula.linear) {literals' : Bindings Literal} {s s' : σ} {t t' : τ}
    (hs : p.compile s = .ok literals s') (ht : p.compile t = .ok literals' t') :
    ∃ sols s'', p.solveAll s = .ok sols s'' ∧ sols.size ≤ Nat.pow 2 p.declaredCells ∧
      (∀ b ∈ sols, b.Fit p.shapes ∧ p.check b = .ok true) ∧
      (sols.toList.Pairwise fun b b' => Bindings.equal b b' = .ok false) ∧
      (∀ b : Solution, b.Fit p.shapes →
        ((∃ m ∈ sols, Bindings.equal m b = .ok true) ↔ p.check b = .ok true)) ∧
      ∃ answer t'', p.solveOne t = .ok answer t'' ∧ (answer = none ↔ sols = #[]) ∧
        ∀ b, answer = some b → b.Fit p.shapes ∧ ∃ m ∈ sols, Bindings.equal m b = .ok true := by
  have hc := compile_spec hlinear hs
  obtain ⟨sols, all, s₂, hrun, h⟩ := foldSolutions_spec Array.push #[] hc
  rw [List.foldl_push_eq_append', Array.empty_append] at hrun
  have hall : p.solveAll s = .ok sols.toArray (Session.clear s₂) := by
    refine thenClear_ok (Run.bind_eq_ok.mpr ⟨{ literals }, s', ?_, hrun⟩)
    exact Run.bind_eq_ok.mpr ⟨literals, s', hs, rfl⟩
  have hmem : ∀ b : Solution, b.Fit p.shapes →
      ((∃ m ∈ sols.toArray, Bindings.equal m b = .ok true) ↔ p.check b = .ok true) := by
    intro b hb
    simp only [List.mem_toArray]
    exact h.mem_iff hc hb
  refine ⟨sols.toArray, _, hall, h.length_le, ?_, h.pairwise, hmem, ?_⟩
  · intro b hb
    have hb := List.mem_toArray.mp hb
    exact ⟨h.fit hb, h.check_eq hc hb⟩
  · obtain ⟨answer, t₂, hone, hspec⟩ := solveOne_spec hlinear ht
    refine ⟨answer, t₂, hone, ?_⟩
    rcases hspec with ⟨b, rfl, hb, hcheck⟩ | ⟨rfl, hnone⟩
    · have hsome := (hmem b hb).mpr hcheck
      refine ⟨⟨nofun, fun hempty => ?_⟩, fun b' hb' => ?_⟩
      · obtain ⟨m, hm, -⟩ := hempty ▸ hsome
        exact absurd hm (Array.not_mem_empty m)
      · cases hb'
        exact ⟨hb, hsome⟩
    · refine ⟨⟨fun _ => ?_, fun _ => rfl⟩, nofun⟩
      have hempty : sols = [] := List.eq_nil_iff_forall_not_mem.mpr fun m hm =>
        hnone m (h.fit hm) (h.check_eq hc hm)
      rw [hempty]

/-- Two cells, of which some has to be true. -/
def someOfTwo : Problem where
  shapes := { entries := [("x", [2])], ordered := List.pairwise_singleton _ _ }
  formula := .fold .any none (.var "x")

def firstOfTwo : Solution where
  entries := [("x", { shape := [2], strides := [1], offset := 0, buffer := #[true, false] })]
  ordered := List.pairwise_singleton _ _

theorem firstOfTwo_fit : firstOfTwo.Fit someOfTwo.shapes :=
  .cons ⟨rfl, rfl, ⟨rfl, by decide, by decide⟩⟩ .nil

theorem someOfTwo_compile : ∃ literals s', someOfTwo.compile ({} : ExhaustiveSession) =
    .ok literals s' :=
  Run.exists_of_returns (by decide +kernel)

theorem solveAll_exact_someOfTwo :
    ∃ sols s', someOfTwo.solveAll ({} : ExhaustiveSession) = .ok sols s' ∧ sols.size ≤ 4 ∧
      (∃ m ∈ sols, Bindings.equal m firstOfTwo = .ok true) ∧
      ∃ answer t', someOfTwo.solveOne ({} : ExhaustiveSession) = .ok answer t' ∧
        answer ≠ none := by
  obtain ⟨literals, s₁, hcompile⟩ := someOfTwo_compile
  obtain ⟨sols, s', hall, hsize, -, -, hmem, answer, t', hone, hnone, -⟩ :=
    solveAll_exact (by decide) hcompile hcompile
  have hfirst := (hmem firstOfTwo firstOfTwo_fit).mpr rfl
  refine ⟨sols, s', hall, hsize, hfirst, answer, t', hone, fun h => ?_⟩
  obtain ⟨m, hm, -⟩ := (hnone.mp h) ▸ hfirst
  exact Array.not_mem_empty m hm

end TensorLogic
