import TensorLogic.Proofs.SessionScopes

/-!
# The cursor over any sound solver

A solver need not be complete for an enumeration to be right about what it does deliver. All
that is asked for here is that an answer satisfies the session: which model it is stays open,
and the solver may give up at any call, with none or with a failure.

Whatever has been returned so far was answered by some assignments, and the session is the
compiled one with a blocking clause for each of them (`Answered`). So the next answer has
another front part than all of them, one step keeps this up (`Answered.next_spec`), and it
holds behind any number of calls. The first call that returns none, fails, or delivers a
solution that has no cells is the last one that reaches the session (`calls_spec`).
-/

namespace TensorLogic

open Cnf Faithful

/-- A session whose answers satisfy its clauses. It need not find one, and it may fail at any
call. -/
class SoundSession (σ : Type) [Session σ] extends Faithful σ where
  solve_spec : ∀ s : σ,
    (∃ answer s', Session.solve s = .ok answer s' ∧ formula s' = formula s ∧
      ∀ a, answer = some a → (formula s).isModel a) ∨
    ∃ cause s', Session.solve s = .error (.refused cause) s' ∧ formula s' = formula s

/-- The search checks what it returns. -/
theorem Cnf.solve_sound {F : Cnf} {a : Assignment} (h : F.solve = .ok (some a)) :
    F.isModel a := by
  rw [solve] at h
  split at h
  next => cases h
  next =>
      split at h
      next => cases h
      next => cases h
      next b _ =>
          by_cases hmodel : F.isModel (b.assignment F.variables)
          · rw [if_pos hmodel] at h
            cases h
            exact hmodel
          · rw [if_neg hmodel] at h
            cases h

theorem StandardSession.solve_eq (s : StandardSession) :
    StandardSession.solve s =
      match s.formula.solve with
      | .ok answer => .ok answer s
      | .error cause => .error (.refused cause) s := by
  show (match s.formula.solve with
    | .ok answer => pure answer
    | .error cause => refuse cause : Run StandardSession (Option Assignment)) s = _
  cases s.formula.solve <;> rfl

instance : SoundSession StandardSession where
  solve_spec s := by
    have hsolve : Session.solve s = _ := s.solve_eq
    cases h : s.formula.solve with
    | ok answer =>
        rw [h] at hsolve
        exact .inl ⟨answer, s, hsolve, rfl, fun a ha => solve_sound (ha ▸ h)⟩
    | error cause =>
        rw [h] at hsolve
        exact .inr ⟨cause, s, hsolve, rfl⟩

theorem RecordedSession.solve_eq (s : RecordedSession) :
    RecordedSession.solve s =
      if s.budget = some 0 then
        .error (.refused (.engine "budget exhausted")) { s with calls := s.calls.push .solve }
      else
        let s' := { s with calls := s.calls.push .solve, budget := s.budget.map (· - 1) }
        match s.formula.solve with
        | .ok answer => .ok answer s'
        | .error cause => .error (.refused cause) s' := by
  by_cases hbudget : s.budget = some 0
  · rw [if_pos hbudget]
    show (if s.budget = some 0 then _ else _ : Run RecordedSession (Option Assignment)) _ = _
    rw [if_pos hbudget]
    rfl
  · rw [if_neg hbudget]
    show (if s.budget = some 0 then _ else _ : Run RecordedSession (Option Assignment)) _ = _
    rw [if_neg hbudget]
    show (match s.formula.solve with
      | .ok answer => pure answer
      | .error cause => refuse cause : Run RecordedSession (Option Assignment)) _ = _
    cases s.formula.solve <;> rfl

instance : SoundSession RecordedSession where
  solve_spec s := by
    have hsolve : Session.solve s = _ := s.solve_eq
    by_cases hbudget : s.budget = some 0
    · rw [if_pos hbudget] at hsolve
      exact .inr ⟨_, _, hsolve, rfl⟩
    · rw [if_neg hbudget] at hsolve
      cases h : s.formula.solve with
      | ok answer =>
          rw [h] at hsolve
          exact .inl ⟨answer, _, hsolve, rfl, fun a ha => solve_sound (ha ▸ h)⟩
      | error cause =>
          rw [h] at hsolve
          exact .inr ⟨cause, _, hsolve, rfl⟩

/-! ## What a clause says about the solution it is added for -/

namespace Bindings

theorem Listed.exists_get {α : Type} {declared : List (String × Shape)}
    {entries : List (String × Tensor α)} {cells : List α} (h : Listed declared entries cells)
    {a : α} (ha : a ∈ cells) : ∃ entry ∈ entries, ∃ index, entry.2.get index = .ok a := by
  induction h with
  | nil => cases ha
  | cons h _ ih =>
      rcases List.mem_append.mp ha with ha | ha
      · obtain ⟨index, -, hget⟩ := (exists_of_forall₂ h.reads).2 a ha
        exact ⟨_, List.mem_cons_self, index, hget⟩
      · obtain ⟨entry, hentry, hget⟩ := ih ha
        exact ⟨entry, List.mem_cons_of_mem _ hentry, hget⟩

/-- Tensors that are related under each name have related cells. -/
theorem Listed.forall₂_of_names {α β : Type} {R : α → β → Prop}
    {declared : List (String × Shape)} {entries : List (String × Tensor α)}
    {entries' : List (String × Tensor β)} {cells : List α} {cells' : List β}
    (h : Listed declared entries cells) (h' : Listed declared entries' cells')
    (hnames : ∀ name t u, (name, t) ∈ entries → (name, u) ∈ entries' → Tensor.Alike R t u) :
    List.Forall₂ R cells cells' := by
  induction h generalizing entries' cells' with
  | nil =>
      cases h'
      exact .nil
  | cons h _ ih =>
      cases h' with
      | cons h' hrest' =>
          refine (forall₂_append_iff (by rw [h.length_eq, h'.length_eq])).mpr ⟨?_, ?_⟩
          · exact (h.alike_iff h').mp
              (hnames _ _ _ List.mem_cons_self List.mem_cons_self)
          · exact ih hrest' fun name t u ht hu =>
              hnames name t u (List.mem_cons_of_mem _ ht) (List.mem_cons_of_mem _ hu)

/-- Tensors read off what an assignment says about the literals exactly if they list its
front part. -/
theorem Listed.reads_iff {p : Problem} {literals : Bindings Literal} {b : Solution}
    {a : Assignment} {cells : List Bool} (hcount : p.declaredCells ≤ a.variables)
    (h : Listed p.shapes.entries literals.entries (literalsFrom 1 p.declaredCells))
    (hb : Listed p.shapes.entries b.entries cells) :
    literals.Reads a b ↔ a.front p.declaredCells = cells := by
  constructor
  · intro hreads
    have hcells : List.Forall₂ (fun l value => a.value l = .ok value)
        (literalsFrom 1 p.declaredCells) cells := by
      refine h.forall₂_of_names hb fun name t u ht hu => ?_
      have hname := hreads name
      rw [NameMap.find?_of_mem ht, NameMap.find?_of_mem hu] at hname
      cases hname with
      | some halike => exact halike
    rw [Assignment.front, ← List.forall₂_eq_eq_eq, List.forall₂_map_left_iff]
    exact hcells.imp fun _ _ hvalue => (Assignment.owns_of_value hvalue).2
  · rintro rfl
    exact h.reads hcount hb

end Bindings

/-- Behind a compilation, the declared cells are the first variables of the session, and the
tensors of their literals can be filled with other cells. -/
structure LaidOut (p : Problem) (literals : Bindings Literal) (F : Cnf) : Prop where
  fillable : ∀ declaration ∈ p.shapes.entries, declaration.2.Fillable Literal
  listed : Bindings.Listed p.shapes.entries literals.entries (literalsFrom 1 p.declaredCells)
  covers : p.declaredCells ≤ F.variables

theorem laidOut_of_compile {σ : Type} [Session σ] [Faithful σ] {p : Problem}
    {literals : Bindings Literal} {s s' : σ} (h : p.compile s = .ok literals s') :
    LaidOut p literals (formula s') := by
  obtain ⟨hfillable, hlisted, -⟩ := compile_ok h
  refine ⟨hfillable, hlisted, ?_⟩
  obtain ⟨-, calls, s₁, -, hends⟩ :=
    p.scoped_compile (S := inferInstance) ⟨rfl, rfl, fun _ _ _ _ => rfl⟩ s
  rw [h] at hends
  obtain ⟨rfl, hwithin⟩ := hends
  -- the last declared cell is a literal of the session
  rcases Nat.eq_zero_or_pos p.declaredCells with hzero | hpos
  · omega
  · have hlast : Int.ofNat p.declaredCells ∈ literalsFrom 1 p.declaredCells :=
      List.mem_map_of_mem (List.mem_range'_1.mpr (by omega))
    obtain ⟨entry, hentry, index, hget⟩ := hlisted.exists_get hlast
    have howned := hwithin entry.1 entry.2 (NameMap.find?_of_mem hentry) index _ hget
    exact (owns_iff.mp howned).2

/-! ## One step -/

/-- The solution that a step delivers. -/
def Step.solution? : Step → Option Solution
  | .solution b => some b
  | .failed _ => none
  | .finished => none

/-- Whether a step is the last one of an enumeration. -/
def Step.Ends (p : Problem) : Step → Prop
  | .solution _ => p.declaredCells = 0
  | .failed _ => True
  | .finished => True

/-- The clauses that rule out what was answered, if there are cells to rule it out by. -/
def Problem.blocks (p : Problem) (answers : List Assignment) : List Clause :=
  if p.declaredCells = 0 then []
  else answers.map fun a => blocked a (literalsFrom 1 p.declaredCells)

/-- Where an enumeration stands whose solutions were read off the given answers. -/
structure Answered {σ : Type} [Session σ] [Faithful σ] (p : Problem)
    (literals : Bindings Literal) (F : Cnf) (m : Models) (answers : List Assignment) (s : σ) :
    Prop where
  literals_eq : m.literals = literals
  found_eq : m.found = answers.length
  models : ∀ a ∈ answers, F.isModel a
  nodup : (answers.map fun a => a.front p.declaredCells).Nodup
  variables_eq : (formula s).variables = F.variables
  clauses_eq : (formula s).clauses.toList = F.clauses.toList ++ p.blocks answers
  /-- Without cells, one answer is all there can be. -/
  first : m.exhausted = false → p.declaredCells = 0 → answers = []

theorem Models.next_of_exhausted {σ : Type} [Session σ] {m : Models}
    (h : m.exhausted = true) : (m.next : Run σ (Step × Models)) = pure (.finished, m) := by
  simp only [Models.next, h, if_true]

theorem Models.answer_sound {σ : Type} [Session σ] [SoundSession σ] (s : σ) :
    (∃ answer s', Models.answer s = .ok (.ok answer) s' ∧ formula s' = formula s ∧
      ∀ a, answer = some a → (formula s).isModel a) ∨
    ∃ cause s', Models.answer s = .ok (.error cause) s' ∧ formula s' = formula s := by
  rcases SoundSession.solve_spec s with ⟨answer, s', hsolve, hspec⟩ | ⟨cause, s', hsolve, hs'⟩
  · refine .inl ⟨answer, s', ?_, hspec⟩
    simp only [Models.answer, tryCatch, tryCatchThe, MonadExceptOf.tryCatch, EStateM.tryCatch,
      Functor.map, EStateM.map, hsolve]
  · refine .inr ⟨cause, s', ?_, hs'⟩
    simp only [Models.answer, tryCatch, tryCatchThe, MonadExceptOf.tryCatch, EStateM.tryCatch,
      Functor.map, EStateM.map, hsolve]
    rfl

namespace Answered

variable {σ : Type} [Session σ] [SoundSession σ] {p : Problem} {literals : Bindings Literal}
  {F : Cnf} {m : Models} {answers : List Assignment} {s : σ}

theorem start (hs : formula s = F) : Answered p literals F { literals } [] s where
  literals_eq := rfl
  found_eq := rfl
  models := by simp
  nodup := .nil
  variables_eq := by rw [hs]
  clauses_eq := by simp [hs, Problem.blocks]
  first _ _ := rfl

theorem close {s' : σ} (h : Answered p literals F m answers s) (hs' : formula s' = formula s) :
    Answered p literals F { m with exhausted := true } answers s' where
  literals_eq := h.literals_eq
  found_eq := h.found_eq
  models := h.models
  nodup := h.nodup
  variables_eq := by rw [hs', h.variables_eq]
  clauses_eq := by rw [hs', h.clauses_eq]
  first hopen := by cases hopen

section

variable {a : Assignment} (h : Answered p literals F m answers s) (ha : (formula s).isModel a)

include h ha

theorem isModel : F.isModel a := by
  obtain ⟨hvars, hclauses⟩ := isModel_iff.mp ha
  refine isModel_iff.mpr ⟨hvars.trans h.variables_eq, fun clause hclause => ?_⟩
  refine hclauses clause ?_
  rw [h.clauses_eq]
  exact List.mem_append_left _ hclause

/-- The blocking clauses keep what was answered from being answered again. -/
theorem front_notMem (hl : LaidOut p literals F) (hopen : m.exhausted = false) :
    a.front p.declaredCells ∉ answers.map fun b => b.front p.declaredCells := by
  intro hmem
  obtain ⟨b, hb, hsame⟩ := List.mem_map.mp hmem
  by_cases hcells : p.declaredCells = 0
  · rw [h.first hopen hcells] at hb
    cases hb
  · have hcount : p.declaredCells ≤ a.variables :=
      (isModel_iff.mp (h.isModel ha)).1 ▸ hl.covers
    have hclause : (blocked b (literalsFrom 1 p.declaredCells)).any a.satisfies := by
      refine (isModel_iff.mp ha).2 _ ?_
      rw [h.clauses_eq, Problem.blocks, if_neg hcells]
      exact List.mem_append_right _ (List.mem_map_of_mem hb)
    exact (any_blocked_iff fun l hl =>
      owns_mono hcount (owns_of_mem_literalsFrom hl)).mp hclause hsame.symm

/-- One more answer, with the clause that rules it out. -/
theorem push (hl : LaidOut p literals F) (hopen : m.exhausted = false) {s' : σ}
    {exhausted : Bool} (hlast : exhausted = false → p.declaredCells ≠ 0)
    (hvars : (formula s').variables = (formula s).variables)
    (hclauses : (formula s').clauses.toList = (formula s).clauses.toList ++ p.blocks [a]) :
    Answered p literals F { m with found := m.found + 1, exhausted } (answers ++ [a]) s' where
  literals_eq := h.literals_eq
  found_eq := by rw [h.found_eq, List.length_append, List.length_singleton]
  models := by
    rw [List.forall_mem_append, List.forall_mem_singleton]
    exact ⟨h.models, h.isModel ha⟩
  nodup := by
    rw [List.map_append, List.map_singleton]
    exact List.nodup_append_comm.mp
      (List.nodup_cons.mpr ⟨h.front_notMem ha hl hopen, h.nodup⟩)
  variables_eq := by rw [hvars, h.variables_eq]
  clauses_eq := by
    rw [hclauses, h.clauses_eq, List.append_assoc, Problem.blocks, Problem.blocks,
      Problem.blocks]
    split
    · rfl
    · rw [List.map_append]
  first hopen hcells := absurd hcells (hlast hopen)

end

/-- A step that is given a model delivers what the model lists. -/
theorem next_of_model (hl : LaidOut p literals F) (h : Answered p literals F m answers s)
    (hopen : m.exhausted = false) {a : Assignment} {s' : σ}
    (hanswer : Models.answer s = .ok (.ok (some a)) s') (hs' : formula s' = formula s)
    (ha : (formula s).isModel a) :
    ∃ b m' s₂, m.next s = .ok (.solution b, m') s₂ ∧
      (p.declaredCells = 0 → m'.exhausted = true) ∧
      Bindings.Listed p.shapes.entries b.entries (a.front p.declaredCells) ∧
      Answered p literals F m' (answers ++ [a]) s₂ := by
  have hvars : a.variables = (formula s').variables := by rw [hs', (isModel_iff.mp ha).1]
  have hcount : p.declaredCells ≤ a.variables :=
    (isModel_iff.mp (h.isModel ha)).1 ▸ hl.covers
  have howned : ∀ l ∈ literalsFrom 1 p.declaredCells, owns a.variables l :=
    fun l hl => owns_mono hcount (owns_of_mem_literalsFrom hl)
  obtain ⟨b, hb, hlisted⟩ := decode_ok hl.fillable hl.listed hcount
  have hlist := hl.listed.literalList_eq
  rw [← h.literals_eq] at hb hlist
  obtain ⟨hlast, hnext⟩ := Models.next_of_answer hopen hanswer hb hlist howned
  by_cases hcells : p.declaredCells = 0
  · have hempty : literalsFrom 1 p.declaredCells = [] := by rw [hcells]; rfl
    refine ⟨b, _, s', hlast hempty, fun _ => rfl, hlisted, ?_⟩
    refine h.push ha hl hopen (by simp) (by rw [hs']) ?_
    rw [hs', Problem.blocks, if_pos hcells, List.append_nil]
  · have hne : literalsFrom 1 p.declaredCells ≠ [] := by
      rw [← List.length_pos_iff, length_literalsFrom]
      omega
    obtain ⟨s₂, hensure, hensured⟩ := ensure_spec s'
      (blocked a (literalsFrom 1 p.declaredCells)) (owns_blocked (hvars ▸ howned))
    refine ⟨b, _, s₂, hnext s₂ hne hensure, fun hzero => absurd hzero hcells, hlisted, ?_⟩
    refine h.push ha hl hopen (fun _ => hcells) (by rw [hensured, hs']; rfl) ?_
    rw [hensured, hs', Problem.blocks, if_neg hcells]
    simp [Cnf.ensure]

/-- Whatever the solver does, a step comes back, and what it delivers is new. -/
theorem next_spec (hl : LaidOut p literals F) (h : Answered p literals F m answers s) :
    ∃ step m' s' more, m.next s = .ok (step, m') s' ∧ (step.Ends p → m'.exhausted = true) ∧
      List.Forall₂ (fun (b : Solution) (a : Assignment) =>
        Bindings.Listed p.shapes.entries b.entries (a.front p.declaredCells))
        step.solution?.toList more ∧
      Answered p literals F m' (answers ++ more) s' := by
  cases hopen : m.exhausted with
  | true =>
      refine ⟨.finished, m, s, [], ?_, fun _ => hopen, .nil, ?_⟩
      · rw [Models.next_of_exhausted hopen]
        rfl
      · rwa [List.append_nil]
  | false =>
      rcases Models.answer_sound s with
        ⟨answer, s', hanswer, hs', hsound⟩ | ⟨cause, s', hanswer, hs'⟩
      · cases answer with
        | none =>
            refine ⟨.finished, { m with exhausted := true }, s', [], ?_, fun _ => rfl, .nil, ?_⟩
            · simp only [Models.next, hopen]
              exact Run.bind_eq_ok.mpr ⟨_, s', hanswer, rfl⟩
            · rw [List.append_nil]
              exact h.close hs'
        | some a =>
            obtain ⟨b, m', s₂, hnext, hends, hlisted, h'⟩ :=
              h.next_of_model hl hopen hanswer hs' (hsound a rfl)
            exact ⟨.solution b, m', s₂, [a], hnext, hends, .cons hlisted .nil, h'⟩
      · refine ⟨.failed cause, { m with exhausted := true }, s', [], ?_, fun _ => rfl, .nil, ?_⟩
        · simp only [Models.next, hopen]
          exact Run.bind_eq_ok.mpr ⟨_, s', hanswer, rfl⟩
        · rw [List.append_nil]
          exact h.close hs'

end Answered

/-! ## Any number of calls -/

/-- So many calls of `next`, one after the other. -/
def Models.calls {σ : Type} [Session σ] : Nat → Models → Run σ (List Step × Models)
  | 0, m => pure ([], m)
  | n + 1, m => do
      let (step, m) ← m.next
      let (steps, m) ← calls n m
      pure (step :: steps, m)

/-- Nothing reaches the session any more. -/
theorem Models.calls_of_exhausted {σ : Type} [Session σ] {m : Models} (n : Nat)
    (h : m.exhausted = true) :
    (m.calls n : Run σ (List Step × Models)) = pure (List.replicate n .finished, m) := by
  induction n with
  | zero => rfl
  | succ n ih =>
      rw [calls, next_of_exhausted h, pure_bind]
      show (do
        let (steps, m) ← m.calls n
        pure (.finished :: steps, m) : Run σ (List Step × Models)) = _
      rw [ih]
      rfl

/-- The solutions that a run of calls delivers. -/
def solutions (steps : List Step) : List Solution :=
  steps.filterMap Step.solution?

theorem solutions_cons (step : Step) (steps : List Step) :
    solutions (step :: steps) = step.solution?.toList ++ solutions steps := by
  cases step <;> rfl

theorem Answered.calls {σ : Type} [Session σ] [SoundSession σ] {p : Problem}
    {literals : Bindings Literal} {F : Cnf} {m : Models} {answers : List Assignment} {s : σ}
    (hl : LaidOut p literals F) (h : Answered p literals F m answers s) (n : Nat) :
    ∃ steps m' s' more, m.calls n s = .ok (steps, m') s' ∧ steps.length = n ∧
      (steps.Pairwise fun step later => step.Ends p → later = .finished) ∧
      ((∃ step ∈ steps, step.Ends p) → m'.exhausted = true) ∧
      List.Forall₂ (fun (b : Solution) (a : Assignment) =>
        Bindings.Listed p.shapes.entries b.entries (a.front p.declaredCells))
        (solutions steps) more ∧
      Answered p literals F m' (answers ++ more) s' := by
  induction n generalizing m answers s with
  | zero =>
      refine ⟨[], m, s, [], rfl, rfl, .nil, ?_, .nil, ?_⟩
      · rintro ⟨step, hstep, -⟩
        cases hstep
      · rwa [List.append_nil]
  | succ n ih =>
      obtain ⟨step, m₁, s₁, first, hnext, hends, hfirst, h₁⟩ := h.next_spec hl
      obtain ⟨steps, m', s', more, hcalls, hlength, hpairwise, hended, hlisted, h'⟩ := ih h₁
      have hquiet : step.Ends p → steps = List.replicate n .finished ∧ m' = m₁ := by
        intro hstep
        rw [Models.calls_of_exhausted n (hends hstep)] at hcalls
        cases hcalls
        exact ⟨rfl, rfl⟩
      refine ⟨step :: steps, m', s', first ++ more, ?_, by rw [List.length_cons, hlength],
        ?_, ?_, ?_, ?_⟩
      · refine Run.bind_eq_ok.mpr ⟨(step, m₁), s₁, hnext, ?_⟩
        exact Run.bind_eq_ok.mpr ⟨(steps, m'), s', hcalls, rfl⟩
      · refine List.pairwise_cons.mpr ⟨fun later hlater hstep => ?_, hpairwise⟩
        rw [(hquiet hstep).1] at hlater
        exact List.eq_of_mem_replicate hlater
      · rintro ⟨other, hother, hother_ends⟩
        rcases List.mem_cons.mp hother with rfl | hother
        · rw [(hquiet hother_ends).2]
          exact hends hother_ends
        · exact hended ⟨other, hother, hother_ends⟩
      · rw [solutions_cons]
        exact List.rel_append hfirst hlisted
      · rw [← List.append_assoc]
        exact h'

/-- Behind a compilation, any number of calls returns, whatever models the solver picks and
wherever it gives up. Each solution fits the declarations and is read off a model of the
compiled formula, and no two of them are equal. Behind the first call that returns none,
fails, or delivers a solution without cells, nothing but none is returned, and no session is
asked for anything. The solutions are counted. The session has one more clause for each of
them, if there are cells, and that clause is false under exactly the assignments that agree
with the solution on all declared cells. -/
theorem Models.calls_spec {σ : Type} [Session σ] [SoundSession σ] {p : Problem}
    {start : Models} {s s₁ : σ} (h : p.models s = .ok start s₁) (n : Nat) :
    ∃ steps m s₂ clauses, start.calls n s₁ = .ok (steps, m) s₂ ∧ steps.length = n ∧
      (∀ b ∈ solutions steps, b.Fit p.shapes ∧
        ∃ a, (formula s₁).isModel a ∧ start.literals.Reads a b) ∧
      ((solutions steps).Pairwise fun b b' => Bindings.equal b b' = .ok false) ∧
      (steps.Pairwise fun step later => step.Ends p → later = .finished) ∧
      ((∃ step ∈ steps, step.Ends p) → ∀ (τ : Type) [Session τ] (k : Nat),
        (m.calls k : Run τ (List Step × Models)) = pure (List.replicate k .finished, m)) ∧
      m.found = (solutions steps).length ∧
      (formula s₂).variables = (formula s₁).variables ∧
      (formula s₂).clauses.toList = (formula s₁).clauses.toList ++ clauses ∧
      (p.declaredCells = 0 → clauses = []) ∧
      (p.declaredCells ≠ 0 → List.Forall₂ (fun (b : Solution) (clause : Clause) =>
        ∀ a : Assignment, a.variables = (formula s₂).variables →
          (clause.any a.satisfies = false ↔ start.literals.Reads a b))
        (solutions steps) clauses) := by
  obtain ⟨literals, s₁', hcompile, hstart⟩ := Run.bind_eq_ok.mp h
  cases hstart
  have hl := laidOut_of_compile hcompile
  obtain ⟨steps, m, s₂, answers, hcalls, hlength, hpairwise, hended, hlisted, hanswered⟩ :=
    (Answered.start rfl).calls hl n
  rw [List.nil_append] at hanswered
  have hcount : ∀ a : Assignment, a.variables = (formula s₁).variables →
      p.declaredCells ≤ a.variables := fun a ha => ha ▸ hl.covers
  refine ⟨steps, m, s₂, p.blocks answers, hcalls, hlength, fun b hb => ?_,
    pairwise_of_nodup (List.forall₂_map_right_iff.mpr hlisted) hanswered.nodup, hpairwise,
    fun hend τ _ k => ?_, ?_, hanswered.variables_eq, hanswered.clauses_eq,
    fun hzero => if_pos hzero, fun hcells => ?_⟩
  · obtain ⟨a, ha, hb⟩ := (exists_of_forall₂ hlisted).1 b hb
    have hmodel := hanswered.models a ha
    exact ⟨hb.fit, a, hmodel, hl.listed.reads (hcount a (isModel_iff.mp hmodel).1) hb⟩
  · exact Models.calls_of_exhausted k (hended hend)
  · rw [hanswered.found_eq, hlisted.length_eq]
  · rw [Problem.blocks, if_neg hcells, List.forall₂_map_right_iff]
    refine hlisted.imp fun b answer hb a ha => ?_
    have hcovered := hcount a (ha.trans hanswered.variables_eq)
    rw [hl.listed.reads_iff hcovered hb, ← Bool.not_eq_true, any_blocked_iff fun l hl =>
      owns_mono hcovered (owns_of_mem_literalsFrom hl), not_not]
    rfl

/-- Two answers, and then the solver fails: the third solution is never found. -/
theorem calls_spec_budget : ∃ start s₁ steps m s₂,
    someOfTwo.models ({ budget := some 2 } : RecordedSession) = .ok start s₁ ∧
      start.calls 4 s₁ = .ok (steps, m) s₂ ∧ steps.length = 4 ∧
      m.found = 2 ∧ (solutions steps).length = 2 := by
  let runs : Run RecordedSession (List Step × Models) :=
    someOfTwo.models >>= fun start => start.calls 4
  obtain ⟨start, s₁, hmodels⟩ : ∃ start s₁,
      someOfTwo.models ({ budget := some 2 } : RecordedSession) = .ok start s₁ :=
    Run.exists_of_returns (by decide +kernel)
  obtain ⟨steps, m, s₂, clauses, hcalls, hlength, -, -, -, -, hfound, -⟩ :=
    Models.calls_spec hmodels 4
  have hruns : runs { budget := some 2 } = .ok (steps, m) s₂ :=
    Run.bind_eq_ok.mpr ⟨start, s₁, hmodels, hcalls⟩
  have htwo : (match runs { budget := some 2 } with
    | .ok (_, m) _ => m.found
    | .error _ _ => 0) = 2 := by decide +kernel
  rw [hruns] at htwo
  exact ⟨start, s₁, steps, m, s₂, hmodels, hcalls, hlength, htwo, hfound ▸ htwo⟩

end TensorLogic
