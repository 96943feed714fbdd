import TensorLogic.Proofs.Enumeration
import TensorLogic.Proofs.Isolation
import TensorLogic.Proofs.WellScoped

/-!
# Sessions in scope

What is done to a session from the start of a compilation to the last model is in scope.
`compile` begins with a session without variables, so it needs no assumption on what was
there before. The literals of the declared cells stay literals of the session, and so the
session takes a clause that pins one of them and the clause that rules out a model, however
much has been added in the meantime. The session refuses none of these clauses; all that
can fail is that there is no literal left for a variable (`session_inScope`).
-/

namespace TensorLogic

open Cnf Faithful Tensor

namespace Bindings

/-- All that can be read from the bound tensors are literals of the first `n` variables. -/
def Within (n : Nat) (env : Bindings Literal) : Prop :=
  ∀ name t, env.find? name = some t → ∀ index l, t.get index = .ok l → owns n l

theorem Legible.within {linear : Prop} {n : Nat} {env : Bindings Literal}
    (h : env.Legible linear n) : env.Within n :=
  fun name t ht _ _ hl => (h name t ht).get hl

theorem legible_ofList {linear : Prop} {n : Nat} {bindings : List (String × Tensor Literal)}
    (h : ∀ binding ∈ bindings, binding.2.Legible linear n) :
    Bindings.Legible linear n (NameMap.ofList bindings) := by
  have hfold : ∀ (bindings : List (String × Tensor Literal)) (env : Bindings Literal),
      env.Legible linear n → (∀ binding ∈ bindings, binding.2.Legible linear n) →
      Bindings.Legible linear n
        (bindings.foldl (fun map binding => map.insert binding.1 binding.2) env) := by
    intro bindings
    induction bindings with
    | nil => exact fun _ henv _ => henv
    | cons binding rest ih =>
        intro env henv hall
        obtain ⟨hbinding, hrest⟩ := List.forall_mem_cons.mp hall
        exact ih _ (henv.insert binding.1 hbinding) hrest
  exact hfold bindings .empty (fun _ _ ht => by cases ht) h

end Bindings

/-! ## Compilation -/

section Compilation

variable {σ : Type} {S : Session σ} [Session σ] [Faithful σ] (hS : S.AgreesInScope)

include hS

theorem scoped_tensor (linear : Prop) (n : Nat) (shape : Shape) :
    ScopedTensor linear n (Session.tensor shape : Run σ (Tensor Literal))
      (@Session.tensor σ S shape) :=
  Scoped.generate fun _ _ _ => scoped_allocate hS

theorem Problem.scoped_allocate (linear : Prop) (n : Nat) (p : Problem) :
    Scoped n (fun m literals => Bindings.Legible linear m literals)
      (p.allocate : Run σ (Bindings Literal)) (@Problem.allocate σ S p) := by
  have hentries : Scoped n (fun m (entries : List (String × Tensor Literal)) =>
        ∀ entry ∈ entries, entry.2.Legible linear m)
      (p.shapes.entries.mapM fun (declaration : String × Shape) => do
        let t ← (Session.tensor declaration.2 : Run σ (Tensor Literal))
        pure (declaration.1, t))
      (p.shapes.entries.mapM fun (declaration : String × Shape) => do
        let t ← @Session.tensor σ S declaration.2
        pure (declaration.1, t)) := by
    refine Scoped.mapM (P := fun m (entry : String × Tensor Literal) => entry.2.Legible linear m)
      (fun _ _ _ hle ht => ht.mono hle) fun m _ declaration _ => ?_
    exact (scoped_tensor hS linear m declaration.2).bind fun _ _ _ ht => Scoped.pure ht
  exact hentries.bind fun _ _ _ hall => Scoped.pure (Bindings.legible_ofList hall)

/-- A compilation is in scope from the clear session on. -/
theorem Problem.scoped_compile (p : Problem) (s : σ) :
    @Problem.compile σ S p s = p.compile s ∧
      ∃ calls s₁, Takes (Session.clear s) calls s₁ ∧
        EndsAt s₁ (fun m literals => Bindings.Within m literals) (p.compile s) := by
  have hrest : Scoped 0 (fun m literals => Bindings.Within m literals)
      (do
        let literals ← (p.allocate : Run σ (Bindings Literal))
        let holds ← p.formula.compute Clausal.literals literals
        Session.ensure [holds]
        pure literals)
      (do
        let literals ← @Problem.allocate σ S p
        let holds ← p.formula.compute (@Clausal.literals σ S) literals
        S.ensure [holds]
        pure literals) := by
    refine (p.scoped_allocate hS False 0).bind fun m literals hm hliterals => ?_
    refine ((Clausal.literals_inScope hS).compute hliterals p.formula False.elim).bind
      fun m' holds hm' hholds => ?_
    refine (scoped_ensure hS (List.cons_ne_nil _ _) (by simpa using hholds)).bind
      fun m'' _ hm'' _ => ?_
    exact Scoped.pure (hliterals.mono (Nat.le_trans hm' hm'')).within
  have hclear : (Faithful.formula (Session.clear s)).variables = 0 := by rw [formula_clear]
  obtain ⟨hsame, calls, s₁, htakes, hends⟩ := hrest (Session.clear s) hclear
  refine ⟨?_, calls, s₁, htakes, hends⟩
  rw [← hS.clear] at hsame
  refine Eq.trans ?_ (hsame.trans ?_)
  · rfl
  · rw [hS.clear]
    rfl

end Compilation

/-! ## Blocking clauses -/

/-- Where a tensor of literals can be decoded, its cells can be read, and the assignment
covers all of them. -/
theorem Tensor.cells_of_decode {a : Assignment} {t : Tensor Literal} {u : Tensor Bool}
    (h : t.decode a = .ok u) : ∃ cells, t.cells = .ok cells ∧
      ∀ l ∈ cells, (∃ index, t.get index = .ok l) ∧ owns a.variables l := by
  have hrun := map_ok (Run.value_eq_ok.mp h)
  rw [fill, Shape.collect_eq, bind_map_left] at hrun
  obtain ⟨values, _, hvalues, -⟩ := Run.bind_eq_ok.mp hrun
  have hread : ∀ index ∈ t.shape.indices, ∃ l, t.get index = .ok l ∧ owns a.variables l := by
    intro index hindex
    obtain ⟨value, -, s, s', hcell⟩ := (exists_of_forall₂ (Run.mapM_ok hvalues)).1 index hindex
    obtain ⟨l, hl, hcell⟩ := Run.lift_bind_eq_ok.mp hcell
    exact ⟨l, hl, (Assignment.owns_of_value (Run.lift_eq_ok.mp hcell).1).1⟩
  obtain ⟨cells, hcells⟩ := mapM_ok_of_forall fun index hindex =>
    (hread index hindex).imp fun _ => And.left
  refine ⟨cells.toArray, ?_, fun l hl => ?_⟩
  · rw [Tensor.cells, Shape.collect_eq, hcells]
    rfl
  · obtain ⟨index, hindex, hget⟩ :=
      (exists_of_forall₂ (mapM_eq_ok.mp hcells)).2 l (List.mem_toArray.mp hl)
    obtain ⟨l', hl', howned⟩ := hread index hindex
    cases hget.symm.trans hl'
    exact ⟨⟨index, hget⟩, howned⟩

/-- Where bindings can be decoded, their cells can be listed, and the assignment covers all
of them. -/
theorem literalList_of_decode {n : Nat} {literals : Bindings Literal} {a : Assignment}
    {solution : Solution} (hwithin : literals.Within n) (h : decode literals a = .ok solution) :
    ∃ ls, literals.literalList = .ok ls ∧ ∀ l ∈ ls, owns n l ∧ owns a.variables l := by
  obtain ⟨images, himages, -⟩ := bind_eq_ok.mp h
  have hall : ∀ t ∈ literals.values, ∃ cells, t.cells = .ok cells ∧
      ∀ l ∈ cells, owns n l ∧ owns a.variables l := by
    intro t ht
    obtain ⟨entry, hentry, rfl⟩ := List.mem_map.mp ht
    obtain ⟨image, -, himage⟩ := (exists_of_forall₂ (mapM_eq_ok.mp himages)).1 entry hentry
    obtain ⟨u, hu, -⟩ := bind_eq_ok.mp himage
    obtain ⟨cells, hcells, howned⟩ := cells_of_decode hu
    refine ⟨cells, hcells, fun l hl => ?_⟩
    obtain ⟨⟨index, hget⟩, hcovered⟩ := howned l hl
    exact ⟨hwithin entry.1 entry.2 (NameMap.find?_of_mem hentry) index l hget, hcovered⟩
  obtain ⟨rows, hrows⟩ := mapM_ok_of_forall fun t ht =>
    let ⟨cells, hcells, _⟩ := hall t ht
    ⟨cells, hcells⟩
  refine ⟨_, bind_eq_ok.mpr ⟨rows, hrows, rfl⟩, fun l hl => ?_⟩
  obtain ⟨row, hrow, hl⟩ := List.mem_flatMap.mp hl
  obtain ⟨t, ht, hcells⟩ := (exists_of_forall₂ (mapM_eq_ok.mp hrows)).2 row hrow
  obtain ⟨cells, hcells', howned⟩ := hall t ht
  cases hcells.symm.trans hcells'
  exact howned l (by simpa using hl)

section Blocking

variable {σ : Type} [Session σ] [Faithful σ] {n : Nat} {s : σ}

theorem ensure_unit {l : Literal} (hl : owns n l) (hn : n ≤ (formula s).variables) :
    ∃ s', Session.ensure [l] s = .ok () s' ∧ formula s' = (formula s).ensure [l] :=
  ensure_spec s [l] (by simpa using owns_mono hn hl)

/-- Once a model has been decoded, nothing can fail: no cell is left to rule it out by, or
the session takes the clause that does. -/
theorem Models.next_of_decode {m : Models} {s' : σ} {a : Assignment} {solution : Solution}
    (hwithin : m.literals.Within n) (hopen : m.exhausted = false)
    (hsolve : Session.solve s = .ok (some a) s') (hn : n ≤ (formula s').variables)
    (hdecode : decode m.literals a = .ok solution) :
    ∃ m' s'', m.next s = .ok (.solution solution, m') s'' ∧
      (m.literals.literalList = .ok [] ∧ s'' = s' ∨
        ∃ clause, clause ≠ [] ∧ clause.all (owns (formula s').variables) ∧
          Session.ensure clause s' = .ok () s'' ∧ formula s'' = (formula s').ensure clause) := by
  have hanswer : Models.answer s = .ok (.ok (some a)) s' := by
    simp only [Models.answer, tryCatch, tryCatchThe, MonadExceptOf.tryCatch, EStateM.tryCatch,
      Functor.map, EStateM.map, hsolve]
  obtain ⟨ls, hlist, howned⟩ := literalList_of_decode hwithin hdecode
  obtain ⟨hlast, hnext⟩ :=
    Models.next_of_answer hopen hanswer hdecode hlist fun l hl => (howned l hl).2
  by_cases hls : ls = []
  · exact ⟨_, s', hlast hls, .inl ⟨hls ▸ hlist, rfl⟩⟩
  · have hclause : (blocked a ls).all (owns (formula s').variables) :=
      owns_blocked fun l hl => owns_mono hn (howned l hl).1
    obtain ⟨s'', hensure, hformula⟩ := ensure_spec s' _ hclause
    have hne : blocked a ls ≠ [] := by
      rwa [blocked, ne_eq, List.map_eq_nil_iff]
    exact ⟨_, s'', hnext s'' hls hensure, .inr ⟨_, hne, hclause, hensure, hformula⟩⟩

end Blocking

/-! ## The session from its compilation to its last model -/

/-- Formulas as literals ask a session for variables and for clauses in scope, and for nothing
else: every operation on literals (the second part), every formula over bindings that are
read for literals of the session (the third), and every compilation, whatever the session
held before (the fourth). The calls are taken one after the other, and what was there stays
as it was (the first). So no clause of a run is ever refused, however the run ends, and what
a session does with a clause out of scope makes no difference. Behind a compilation the
session takes the clause that pins a declared cell (the fifth) and, once a model has been
decoded, the clause that rules it out (the sixth). -/
theorem session_inScope {σ : Type} {S : Session σ} [Session σ] [Faithful σ]
    (hS : S.AgreesInScope) :
    (∀ (s s₁ : σ) (calls : List SessionCall), Takes s calls s₁ →
      (formula s₁).variables = (formula s).variables + calls.count .variable ∧
      (formula s₁).clauses.toList =
        (formula s).clauses.toList ++ calls.filterMap SessionCall.clause?) ∧
    Interpreter.InScope (Clausal.literals (σ := σ)) (@Clausal.literals σ S) ∧
    (∀ (s : σ) (f : Formula) (env : Bindings Literal),
      env.Legible f.linear (formula s).variables →
      f.eval (@Clausal.literals σ S) env s = f.eval Clausal.literals env s ∧
      ∃ calls s₁, Takes s calls s₁ ∧
        EndsAt s₁ (fun n t => ∀ index l, t.get index = .ok l → owns n l)
          (f.eval Clausal.literals env s)) ∧
    (∀ (s : σ) (p : Problem), @Problem.compile σ S p s = p.compile s ∧
      ∃ calls s₁, Takes (Session.clear s) calls s₁ ∧
        EndsAt s₁ (fun n literals => Bindings.Within n literals) (p.compile s)) ∧
    (∀ (s : σ) (n : Nat) (literals : Bindings Literal), literals.Within n →
      n ≤ (formula s).variables →
      ∀ name t index l, literals.find? name = some t → t.get index = .ok l →
        (∃ s', Session.ensure [l] s = .ok () s' ∧ formula s' = (formula s).ensure [l]) ∧
        ∃ s', Session.ensure [-l] s = .ok () s' ∧ formula s' = (formula s).ensure [-l]) ∧
    ∀ (s s' : σ) (n : Nat) (m : Models) (a : Assignment) (solution : Solution),
      m.literals.Within n → m.exhausted = false → Session.solve s = .ok (some a) s' →
      n ≤ (formula s').variables → decode m.literals a = .ok solution →
      ∃ m' s'', m.next s = .ok (.solution solution, m') s'' ∧
        (m.literals.literalList = .ok [] ∧ s'' = s' ∨
          ∃ clause, clause ≠ [] ∧ clause.all (owns (formula s').variables) ∧
            Session.ensure clause s' = .ok () s'' ∧
            formula s'' = (formula s').ensure clause) := by
  refine ⟨fun s s₁ calls h => ⟨h.variables_eq, h.clauses_eq⟩, Clausal.literals_inScope hS,
    fun s f env henv => ?_, fun s p => p.scoped_compile hS s, ?_, ?_⟩
  · have heval := (Clausal.literals_inScope hS).eval henv f fun h => h
    exact (heval.mono fun _ _ _ ht _ _ hl => ht.get hl) s rfl
  · intro s n literals hwithin hn name t index l ht hl
    have howned := hwithin name t ht index l hl
    exact ⟨ensure_unit howned hn, ensure_unit (owns_neg howned) hn⟩
  · intro s s' n m a solution hwithin hopen hsolve hn hdecode
    exact Models.next_of_decode hwithin hopen hsolve hn hdecode

/-- The session that keeps a record, made to take every clause. -/
abbrev lenient : Session RecordedSession where
  allocate := Session.allocate
  ensure clause s :=
    if clause ≠ [] ∧ clause.all (owns s.formula.variables) then Session.ensure clause s
    else .ok () s
  clear := Session.clear
  solve := Session.solve
  «variables» := Session.variables
  clauses := Session.clauses

theorem lenient_agrees : lenient.AgreesInScope where
  allocate := rfl
  clear := rfl
  ensure _ _ hne howned := if_pos ⟨hne, howned⟩

def negatedPair : Bindings Literal where
  entries := [("x", { shape := [2], strides := [1], offset := 0, buffer := #[1, -2] })]
  ordered := List.pairwise_singleton _ _

theorem negatedPair_legible (linear : Prop) : negatedPair.Legible linear 2 := by
  intro name t ht
  obtain rfl : t = { shape := [2], strides := [1], offset := 0, buffer := #[1, -2] } := by
    rw [NameMap.find?, negatedPair, List.lookup_cons] at ht
    split at ht <;> cases ht
    rfl
  exact .inl (by decide)

/-- Of two cells one is true: the gate is variable 3, behind the two that exist. -/
theorem session_inScope_someOfTwo : lenient.AgreesInScope ∧
    (∃ calls s₁, Takes ({ formula := { «variables» := 2 } } : RecordedSession) calls s₁ ∧
      EndsAt s₁ (fun n t => ∀ index l, t.get index = .ok l → owns n l)
        (someOfTwo.formula.eval Clausal.literals negatedPair
          { formula := { «variables» := 2 } })) ∧
    (∃ calls s₁, Takes ({ calls := #[.clear] } : RecordedSession) calls s₁ ∧
      EndsAt s₁ (fun n literals => Bindings.Within n literals)
        (someOfTwo.compile ({} : RecordedSession))) ∧
    ((someOfTwo.compile : Run RecordedSession (Bindings Literal)).leaves {}).calls =
      #[.clear, .variable, .variable, .variable, .ensure [3, -1], .ensure [3, -2],
        .ensure [-3, 1, 2], .ensure [3]] := by
  obtain ⟨-, -, heval, hcompile, -⟩ := session_inScope lenient_agrees
  refine ⟨lenient_agrees, ?_, ?_, by decide +kernel⟩
  · exact (heval { formula := { «variables» := 2 } } someOfTwo.formula negatedPair
      (negatedPair_legible _)).2
  · exact (hcompile {} someOfTwo).2

end TensorLogic
