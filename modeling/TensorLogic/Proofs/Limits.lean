import TensorLogic.Proofs.Isolation
import TensorLogic.Proofs.Slices

/-!
# Limits, counts and stacks

An enumeration is one sequence of steps, whoever runs it. `Delivers` is that sequence: the
solutions of an enumeration from where it stands up to the step that finds it finished.
Folding over all solutions can only have gone through such a sequence, and from there every
other way to run the enumeration is settled, since a step from one state has one outcome:
taking up to a limit gives the front of the sequence, counting gives its length, and neither
asks for a step that the other does not. A session that keeps nothing of what it held before
makes that true of requests that start from different states.

Stacking puts the tensors of one variable next to each other along a new last axis, so the
slices of the stack are the tensors again, solution by solution. The cells of the stack have
to fit into memory: there the shape decides, and it is the only thing that can go wrong
(`limits_agree`).
-/

namespace TensorLogic

open Faithful

/-! ## Answers -/

section Answers

variable {σ α : Type}

theorem Run.answer_eq_ok {x : Run σ α} {s : σ} {a : α} :
    x.answer s = .ok a ↔ ∃ s', x s = .ok a s' := by
  rw [Run.answer]
  cases x s <;> simp

theorem of_thenClear [Session σ] {x : Run σ α} {a : α} {s s' : σ}
    (h : Problem.thenClear x s = .ok a s') : ∃ s₁, x s = .ok a s₁ := by
  cases hx : x s with
  | ok b s₁ =>
      rw [thenClear_ok hx] at h
      cases h
      exact ⟨s₁, rfl⟩
  | error fault s₁ =>
      simp only [Problem.thenClear, tryCatch, tryCatchThe, MonadExceptOf.tryCatch,
        EStateM.tryCatch, bind, EStateM.bind, hx] at h
      cases fault <;> cases h

end Answers

/-! ## The steps of an enumeration -/

namespace Models

variable {σ : Type} [Session σ]

/-- From the state, the enumeration delivers the solutions one after the other, and then it
is finished. -/
inductive Delivers : Models → σ → List Solution → σ → Prop
  | finished {m m' : Models} {s s' : σ} : m.next s = .ok (.finished, m') s' → Delivers m s [] s'
  | solution {m m' : Models} {s s₁ s' : σ} {b : Solution} {bs : List Solution} :
      m.next s = .ok (.solution b, m') s₁ → Delivers m' s₁ bs s' → Delivers m s (b :: bs) s'

/-- A step keeps the literals, and a solution is what the session answered, read off at
them. -/
theorem next_ok {m m' : Models} {s s' : σ} {step : Step}
    (h : m.next s = .ok (step, m') s') :
    m'.literals = m.literals ∧ ∀ b, step = .solution b → ∃ a, decode m.literals a = .ok b := by
  rw [next] at h
  split at h
  · cases h
    refine ⟨rfl, fun b hb => ?_⟩
    cases hb
  · obtain ⟨answered, s₁, -, h⟩ := Run.bind_eq_ok.mp h
    obtain _ | _ | a := answered
    · cases h
      refine ⟨rfl, fun b hb => ?_⟩
      cases hb
    · cases h
      refine ⟨rfl, fun b hb => ?_⟩
      cases hb
    · obtain ⟨b', hb', h⟩ := Run.lift_bind_eq_ok.mp h
      obtain ⟨cells, -, h⟩ := Run.lift_bind_eq_ok.mp h
      have hread : ∀ b, Step.solution b' = .solution b → ∃ a, decode m.literals a = .ok b := by
        rintro b ⟨⟩
        exact ⟨a, hb'⟩
      cases cells with
      | nil =>
          cases h
          exact ⟨rfl, hread⟩
      | cons =>
          obtain ⟨clause, -, h⟩ := Run.lift_bind_eq_ok.mp h
          obtain ⟨_, s₂, -, h⟩ := Run.bind_eq_ok.mp h
          cases h
          exact ⟨rfl, hread⟩

variable {m : Models} {s s' : σ} {bs : List Solution} {β : Type} {step : β → Solution → β}

/-- A fold that returns has gone through all steps. -/
theorem delivers_of_foldAll {fuel : Nat} {acc r : β}
    (h : foldAll step fuel m acc s = .ok r s') :
    ∃ bs, Delivers m s bs s' ∧ bs.length < fuel ∧ r = bs.foldl step acc := by
  induction fuel generalizing m acc s with
  | zero => cases h
  | succ fuel ih =>
      obtain ⟨⟨outcome, m'⟩, s₁, hnext, h⟩ := Run.bind_eq_ok.mp h
      cases outcome with
      | finished =>
          cases h
          exact ⟨[], .finished hnext, by simp, rfl⟩
      | failed => cases h
      | solution b =>
          obtain ⟨bs, hrest, hlength, hr⟩ := ih h
          refine ⟨b :: bs, .solution hnext hrest, ?_, hr⟩
          rw [List.length_cons]
          omega

namespace Delivers

theorem foldAll (h : Delivers m s bs s') {fuel : Nat} (hfuel : bs.length < fuel) (acc : β) :
    Models.foldAll step fuel m acc s = .ok (bs.foldl step acc) s' := by
  induction h generalizing fuel acc with
  | finished hnext =>
      obtain ⟨fuel, rfl⟩ : ∃ k, fuel = k + 1 := ⟨fuel - 1, by omega⟩
      exact Run.bind_eq_ok.mpr ⟨_, _, hnext, rfl⟩
  | solution hnext _ ih =>
      rw [List.length_cons] at hfuel
      obtain ⟨fuel, rfl⟩ : ∃ k, fuel = k + 1 := ⟨fuel - 1, by omega⟩
      exact Run.bind_eq_ok.mpr ⟨_, _, hnext, ih (by omega) _⟩

/-- Taking stops at the limit or at the step that finds the enumeration finished, and
delivers what came up until then. -/
theorem take (h : Delivers m s bs s') (limit : Nat) (acc : Array Solution) :
    ∃ s'', Models.take limit m acc s = .ok (acc ++ (bs.take limit).toArray) s'' := by
  induction h generalizing limit acc with
  | @finished m m' s s' hnext =>
      cases limit with
      | zero => exact ⟨s, by simp [Models.take, pure, EStateM.pure]⟩
      | succ limit =>
          refine ⟨s', Run.bind_eq_ok.mpr ⟨_, _, hnext, ?_⟩⟩
          simp [pure, EStateM.pure]
  | @solution m m' s s₁ s' b bs hnext _ ih =>
      cases limit with
      | zero => exact ⟨s, by simp [Models.take, pure, EStateM.pure]⟩
      | succ limit =>
          obtain ⟨s'', htake⟩ := ih limit (acc.push b)
          refine ⟨s'', Run.bind_eq_ok.mpr ⟨_, _, hnext, ?_⟩⟩
          rw [List.take_succ_cons]
          simpa using htake

/-- All solutions are read off at the same literals. -/
theorem decoded (h : Delivers m s bs s') : ∀ b ∈ bs, ∃ a, decode m.literals a = .ok b := by
  induction h with
  | finished => simp
  | solution hnext _ ih =>
      obtain ⟨hliterals, hb⟩ := next_ok hnext
      rw [hliterals] at ih
      exact List.forall_mem_cons.mpr ⟨hb _ rfl, ih⟩

end Delivers

end Models

/-! ## The requests -/

namespace Problem

variable {σ : Type} [Session σ] {p : Problem} {s s' : σ}

/-- Where all solutions are returned, the enumeration behind the compilation delivers them,
before its fuel is used up. -/
theorem solveAll_delivers {sols : Array Solution} (h : p.solveAll s = .ok sols s') :
    ∃ literals s₁ s₂ ls, p.compile s = .ok literals s₁ ∧ literals.literalList = .ok ls ∧
      Models.Delivers { literals } s₁ sols.toList s₂ ∧
      sols.size < Nat.pow 2 ls.length + 1 := by
  obtain ⟨s₂, h⟩ := of_thenClear h
  obtain ⟨m, s₁, hmodels, h⟩ := Run.bind_eq_ok.mp h
  obtain ⟨literals, s₁', hcompile, hm⟩ := Run.bind_eq_ok.mp hmodels
  cases hm
  obtain ⟨ls, hls, h⟩ := Run.lift_bind_eq_ok.mp h
  obtain ⟨bs, hdelivers, hlength, hsols⟩ := Models.delivers_of_foldAll h
  obtain rfl : sols = bs.toArray := by simpa using hsols
  exact ⟨literals, s₁, s₂, ls, hcompile, hls, hdelivers, by simpa using hlength⟩

variable {literals : Bindings Literal} {s₁ s₂ : σ} {bs : List Solution} {ls : List Literal}

theorem models_of_compile (h : p.compile s = .ok literals s₁) :
    p.models s = .ok { literals } s₁ :=
  Run.bind_eq_ok.mpr ⟨literals, s₁, h, rfl⟩

theorem enumerate_of_delivers (hcompile : p.compile s = .ok literals s₁)
    (h : Models.Delivers { literals } s₁ bs s₂) (limit : Nat) :
    ∃ s', p.enumerate (some limit) s = .ok (bs.take limit).toArray s' := by
  obtain ⟨s', htake⟩ := h.take limit #[]
  refine ⟨Session.clear s', thenClear_ok ?_⟩
  refine Run.bind_eq_ok.mpr ⟨{ literals }, s₁, models_of_compile hcompile, ?_⟩
  simpa using htake

theorem count_of_delivers (hcompile : p.compile s = .ok literals s₁)
    (hls : literals.literalList = .ok ls) (h : Models.Delivers { literals } s₁ bs s₂)
    (hfuel : bs.length < Nat.pow 2 ls.length + 1) :
    ∃ s', p.count s = .ok bs.length s' := by
  have hlength : bs.foldl (fun n _ => n + 1) 0 = bs.length := by
    rw [List.foldl_add_const, Nat.zero_add, Nat.one_mul]
  have hrun := hlength ▸ h.foldAll hfuel 0
  refine ⟨Session.clear s₂, thenClear_ok ?_⟩
  refine Run.bind_eq_ok.mpr ⟨{ literals }, s₁, models_of_compile hcompile, ?_⟩
  exact Run.lift_bind_eq_ok.mpr ⟨ls, hls, hrun⟩

end Problem

/-! ## Solutions fit -/

theorem NameMap.of_mapM {β γ : Type} {f : String → β → Except Fault γ} {map : NameMap β}
    {map' : NameMap γ} (h : map.mapM f = .ok map') :
    List.Forall₂ (fun e e' => e.1 = e'.1 ∧ f e.1 e.2 = .ok e'.2) map.entries map'.entries := by
  obtain ⟨bindings, hbindings, h⟩ := bind_eq_ok.mp h
  cases h
  have hall : List.Forall₂ (fun e e' => e.1 = e'.1 ∧ f e.1 e.2 = .ok e'.2) map.entries
      bindings := by
    refine (mapM_eq_ok.mp hbindings).imp fun e e' he => ?_
    obtain ⟨image, himage, he⟩ := bind_eq_ok.mp he
    cases he
    exact ⟨rfl, himage⟩
  rw [entries_ofList (ordered_of_forall₂ (hall.imp fun _ _ he => he.1) map.ordered)]
  exact hall

/-- A decoded solution has a tensor for each declared variable, of the declared shape. -/
theorem find?_of_decode {literals : Bindings Literal} {shapes : NameMap Shape} {a : Assignment}
    {b : Solution} (hliterals : literals.Fit shapes) (h : decode literals a = .ok b)
    {declaration : String × Shape} (hdeclared : declaration ∈ shapes.entries) :
    ∃ v, b.find? declaration.1 = some v ∧ v.shape = declaration.2 ∧ v.InBounds := by
  have hdecoded : literals.Paired (fun t u => t.decode a = .ok u) b := NameMap.of_mapM h
  have hshape := NameMap.find?_of_mem hdeclared
  match shapes.find? declaration.1, literals.find? declaration.1, b.find? declaration.1,
    hliterals.find?_rel declaration.1, hdecoded.find?_rel declaration.1, hshape with
  | _, _, _, .some ⟨ht, _⟩, .some hu, rfl =>
      obtain ⟨hv, hbounds, -⟩ := Tensor.fill_spec (Tensor.map_ok (Run.value_eq_ok.mp hu))
      exact ⟨_, rfl, hv.trans ht, hbounds⟩

/-! ## Stacks of solutions -/

/-- The tensors that the solutions have for a variable of the shape, one per coordinate of a
new last axis. Its slices are given out unless the list of them is too long for memory. -/
structure Stacked (sols : List Solution) (name : String) (shape : Shape) (u : Tensor Bool) :
    Prop where
  shape_eq : u.shape = shape ++ [sols.length]
  unconcat_eq : u.unconcat = Size.reserve sols.length Tensor.viewWidth >>= fun _ =>
    .ok ((List.range sols.length).map u.slice)
  slice_eq : ∀ (k : Nat) (hk : k < sols.length), ∃ v, sols[k].find? name = some v ∧
    Tensor.equal (u.slice k) v = .ok true

section Stack

variable {sols : List Solution} {name : String} {shape : Shape}

/-- One variable of a stack: its tensors side by side, or too many cells for memory. -/
theorem stackSolutions_spec
    (hfit : ∀ b ∈ sols, ∃ v, b.find? name = some v ∧ v.shape = shape ∧ v.InBounds)
    (hstorable : sols ≠ [] → Shape.Storable (shape ++ [sols.length])) :
    (∃ u, Problem.stackSolutions sols name shape = .ok u ∧ Stacked sols name shape u) ∨
    Problem.stackSolutions sols name shape =
        .error (.trapped (.capacity (Shape.cells (shape ++ [sols.length])))) ∧
      Size.reserve (Shape.cells (shape ++ [sols.length])) (Cell.width Bool) ≠ .ok () := by
  by_cases hnil : sols = []
  · subst hnil
    obtain ⟨hbounds, -⟩ := Tensor.constant_spec (shape ++ [0]) false
    refine .inl ⟨.constant (shape ++ [0]) false, rfl, rfl, ?_, by simp⟩
    rw [Tensor.unconcat_eq hbounds]
    simp [Tensor.constant]
  · have hget : ∀ b ∈ sols, ∃ v, Bindings.get b name = .ok v := by
      intro b hb
      obtain ⟨v, hv, -⟩ := hfit b hb
      exact ⟨v, by rw [Bindings.get, hv]⟩
    obtain ⟨parts, hparts⟩ := mapM_ok_of_forall hget
    have hall := mapM_eq_ok.mp hparts
    have hlength := hall.length_eq
    have hpart : ∀ (k : Nat) (hk : k < sols.length) (hk' : k < parts.length),
        sols[k].find? name = some parts[k] ∧ parts[k].shape = shape ∧ parts[k].InBounds := by
      intro k hk hk'
      have hgot := (List.forall₂_iff_get.mp hall).2 k hk hk'
      obtain ⟨v, hv, hshape, hbounds⟩ := hfit _ (List.getElem_mem hk)
      simp only [List.get_eq_getElem, Bindings.get, hv, Except.ok.injEq] at hgot
      rw [← hgot]
      exact ⟨hv, hshape, hbounds⟩
    have hshapes : ∀ part ∈ parts, part.shape = shape ∧ part.InBounds := by
      intro part hmem
      obtain ⟨k, hk, rfl⟩ := List.getElem_of_mem hmem
      exact (hpart k (hlength ▸ hk) hk).2
    have hne : parts ≠ [] := by
      intro hempty
      exact hnil (List.length_eq_zero_iff.mp (by simpa [hempty] using hlength))
    have hstack : Problem.stackSolutions sols name shape = Tensor.stack parts := by
      obtain ⟨first, rest, rfl⟩ := List.exists_cons_of_ne_nil hnil
      rw [Problem.stackSolutions, hparts]
      rfl
    have hstorable := hstorable hnil
    rw [hstack]
    rw [hlength] at hstorable ⊢
    by_cases hreserve :
        Size.reserve (Shape.cells (shape ++ [parts.length])) (Cell.width Bool) = .ok ()
    · obtain ⟨u, hu⟩ := Shape.Fillable.stack_ok ⟨hstorable, hreserve⟩ hne
        (fun part hmem => (hshapes part hmem).1) fun part hmem => (hshapes part hmem).2.readable
      obtain ⟨hushape, hubounds, -⟩ := Tensor.stack_cells hu fun part hmem => (hshapes part hmem).1
      refine .inl ⟨u, hu, by rw [hushape, hlength], ?_, fun k hk => ?_⟩
      · rw [Tensor.unconcat_reserve hubounds hushape, hlength]
      · have hk' : k < parts.length := hlength ▸ hk
        exact ⟨parts[k], (hpart k hk hk').1, Tensor.equal_slice_of_stack hu hk'⟩
    · exact .inr ⟨Tensor.stack_overflows hne (fun part hmem => (hshapes part hmem).1) hstorable
        hreserve, hreserve⟩

end Stack

/-- Where every visit returns or fails for a known reason, so does the traversal. -/
theorem mapM_ok_or {α β : Type} {f : α → Except Fault β} {fault : α → Fault}
    {R : α → β → Prop} {Bad : α → Prop} {l : List α}
    (h : ∀ a ∈ l, (∃ b, f a = .ok b ∧ R a b) ∨ f a = .error (fault a) ∧ Bad a) :
    (∃ bs, l.mapM f = .ok bs ∧ List.Forall₂ R l bs) ∨
      ∃ a ∈ l, l.mapM f = .error (fault a) ∧ Bad a := by
  induction l with
  | nil => exact .inl ⟨[], rfl, .nil⟩
  | cons a l ih =>
      obtain ⟨ha, hl⟩ := List.forall_mem_cons.mp h
      rw [List.mapM_cons]
      rcases ha with ⟨b, hb, hab⟩ | ⟨hfault, hbad⟩
      · rw [hb]
        rcases ih hl with ⟨bs, hbs, hall⟩ | ⟨c, hc, hfault, hbad⟩
        · rw [hbs]
          exact .inl ⟨b :: bs, rfl, .cons hab hall⟩
        · rw [hfault]
          exact .inr ⟨c, List.mem_cons_of_mem _ hc, rfl, hbad⟩
      · rw [hfault]
        exact .inr ⟨a, List.mem_cons_self, rfl, hbad⟩

namespace Problem

variable {p : Problem} {sols : List Solution}

/-- A stack has exactly the declared variables, or one of them has too many cells. -/
theorem stack_spec (p : Problem) (sols : List Solution)
    (hfit : ∀ b ∈ sols, ∀ declaration ∈ p.shapes.entries,
      ∃ v, b.find? declaration.1 = some v ∧ v.shape = declaration.2 ∧ v.InBounds)
    (hstorable : sols ≠ [] → ∀ declaration ∈ p.shapes.entries,
      Shape.Storable (declaration.2 ++ [sols.length])) :
    (∃ u, p.stack sols = .ok u ∧ List.Forall₂ (fun declaration entry =>
      declaration.1 = entry.1 ∧ Stacked sols declaration.1 declaration.2 entry.2)
        p.shapes.entries u.entries) ∨
    ∃ declaration ∈ p.shapes.entries,
      p.stack sols =
          .error (.trapped (.capacity (Shape.cells (declaration.2 ++ [sols.length])))) ∧
        Size.reserve (Shape.cells (declaration.2 ++ [sols.length])) (Cell.width Bool) ≠
          .ok () := by
  have hvisit : ∀ declaration ∈ p.shapes.entries,
      (∃ entry, (do
          let image ← stackSolutions sols declaration.1 declaration.2
          pure (declaration.1, image)) = .ok entry ∧
        declaration.1 = entry.1 ∧ Stacked sols declaration.1 declaration.2 entry.2) ∨
      (do
          let image ← stackSolutions sols declaration.1 declaration.2
          pure (declaration.1, image)) =
          .error (.trapped (.capacity (Shape.cells (declaration.2 ++ [sols.length])))) ∧
        Size.reserve (Shape.cells (declaration.2 ++ [sols.length])) (Cell.width Bool) ≠
          .ok () := by
    intro declaration hdeclared
    have hspec := stackSolutions_spec (fun b hb => hfit b hb declaration hdeclared)
      fun hne => hstorable hne declaration hdeclared
    rcases hspec with ⟨u, hu, hstacked⟩ | ⟨hfault, hlarge⟩
    · rw [hu]
      exact .inl ⟨(declaration.1, u), rfl, rfl, hstacked⟩
    · rw [hfault]
      exact .inr ⟨rfl, hlarge⟩
  rcases mapM_ok_or hvisit with ⟨entries, hentries, hall⟩ | ⟨large, hlarge, hfault, hbytes⟩
  · refine .inl ⟨NameMap.ofList entries, bind_eq_ok.mpr ⟨entries, hentries, rfl⟩, ?_⟩
    have hordered := NameMap.ordered_of_forall₂ (hall.imp fun _ _ he => he.1) p.shapes.ordered
    rwa [NameMap.entries_ofList hordered]
  · refine .inr ⟨large, hlarge, ?_, hbytes⟩
    rw [stack, NameMap.mapM, hfault]
    rfl

theorem collect_answer {σ : Type} [Session σ] {limit : Option Nat} {s : σ}
    {taken : Array Solution} (h : (p.enumerate limit : Run σ _).answer s = .ok taken) :
    (p.collect limit : Run σ _).answer s = p.stack taken.toList := by
  obtain ⟨s', hrun⟩ := Run.answer_eq_ok.mp h
  simp only [Run.answer, collect, bind, EStateM.bind, hrun]
  cases p.stack taken.toList <;> rfl

end Problem

/-! ## The requests agree -/

/-- Where all solutions are returned from some state, then from every state: a limit gives
the first of them, the count is their number, and collecting gives for each declared
variable a stack with one slice per solution. The sizes of the stack have to fit a word.

Besides, its buffers have to fit into memory, which is a proviso of its own: the returned
solutions say nothing about it. If one of them does not, that is what collecting stops by. -/
theorem limits_agree {σ : Type} [Session σ] [Faithful σ] [Forgetful σ] (p : Problem) {s : σ}
    {sols : Array Solution} (h : (p.solveAll : Run σ _).answer s = .ok sols) (t : σ) :
    (∀ limit, (p.enumerate (some limit) : Run σ _).answer t =
      .ok (sols.toList.take limit).toArray) ∧
    (p.count : Run σ _).answer t = .ok sols.size ∧
    (p.collect none : Run σ _).answer t = (p.collect (some sols.size)).answer t ∧
    ∀ limit, (0 < min limit sols.size → ∀ declaration ∈ p.shapes.entries,
        Shape.Storable (declaration.2 ++ [min limit sols.size])) →
      (∃ u, (p.collect (some limit) : Run σ _).answer t = .ok u ∧
        List.Forall₂ (fun declaration entry => declaration.1 = entry.1 ∧
          entry.2.shape = declaration.2 ++ [min limit sols.size] ∧
          Stacked (sols.toList.take limit) declaration.1 declaration.2 entry.2)
            p.shapes.entries u.entries) ∨
      ∃ declaration ∈ p.shapes.entries,
        (p.collect (some limit) : Run σ _).answer t = .error (.trapped
            (.capacity (Shape.cells (declaration.2 ++ [min limit sols.size])))) ∧
          Size.reserve (Shape.cells (declaration.2 ++ [min limit sols.size]))
            (Cell.width Bool) ≠ .ok () := by
  obtain ⟨s', hsolve⟩ := Run.answer_eq_ok.mp h
  obtain ⟨literals, s₁, s₂, ls, hcompile, hls, hdelivers, hfuel⟩ := Problem.solveAll_delivers hsolve
  have henumerate : ∀ limit, (p.enumerate (some limit) : Run σ _).answer t =
      .ok (sols.toList.take limit).toArray := by
    intro limit
    rw [← (p.enumerate_forgets (some limit) s t).answer_eq]
    exact Run.answer_eq_ok.mpr (Problem.enumerate_of_delivers hcompile hdelivers limit)
  have hall : (p.enumerate none : Run σ _).answer t = .ok sols := by
    rw [← (p.enumerate_forgets none s t).answer_eq]
    exact h
  refine ⟨henumerate, ?_, ?_, fun limit hstorable => ?_⟩
  · rw [← (p.count_forgets s t).answer_eq]
    exact Run.answer_eq_ok.mpr (Problem.count_of_delivers hcompile hls hdelivers hfuel)
  · rw [Problem.collect_answer hall, Problem.collect_answer (henumerate sols.size),
      List.take_of_length_le (by simp)]
  · obtain ⟨s₀, hallocate⟩ : ∃ s₀, p.allocate (Session.clear s) = .ok literals s₀ := by
      obtain ⟨_, s₀, hclear, hrest⟩ := Run.bind_eq_ok.mp hcompile
      cases hclear
      obtain ⟨_, s₀, hallocate, hrest⟩ := Run.bind_eq_ok.mp hrest
      obtain ⟨_, _, -, hrest⟩ := Run.bind_eq_ok.mp hrest
      obtain ⟨_, _, -, hrest⟩ := Run.bind_eq_ok.mp hrest
      cases hrest
      exact ⟨s₀, hallocate⟩
    have hliterals := (Problem.allocate_ok hallocate).2.1.fit
    have hlength : (sols.toList.take limit).length = min limit sols.size := by simp
    rw [Problem.collect_answer (henumerate limit)]
    have hspec := p.stack_spec (sols.toList.take limit)
      (fun b hb declaration hdeclared => ?_) fun hne => ?_
    · rw [hlength] at hspec
      rcases hspec with ⟨u, hu, hstacked⟩ | hfault
      · refine .inl ⟨u, hu, hstacked.imp fun _ _ he => ⟨he.1, ?_, he.2⟩⟩
        rw [← hlength]
        exact he.2.shape_eq
      · exact .inr hfault
    · obtain ⟨a, ha⟩ := hdelivers.decoded b (List.mem_of_mem_take hb)
      exact find?_of_decode hliterals ha hdeclared
    · rw [hlength]
      refine hstorable ?_
      rw [← hlength]
      exact List.length_pos_iff.mpr hne

/-- Two of the three solutions, asked for in a session that holds something else. -/
theorem limits_agree_someOfTwo : ∃ sols : Array Solution,
    (someOfTwo.solveAll : Run StandardSession _).answer {} = .ok sols ∧ sols.size = 3 ∧
    (someOfTwo.enumerate (some 2) : Run StandardSession _).answer staleSession =
      .ok (sols.toList.take 2).toArray ∧
    ∃ u, (someOfTwo.collect (some 2) : Run StandardSession _).answer staleSession = .ok u ∧
      List.Forall₂ (fun declaration entry => declaration.1 = entry.1 ∧
        entry.2.shape = declaration.2 ++ [2] ∧
        Stacked (sols.toList.take 2) declaration.1 declaration.2 entry.2)
          someOfTwo.shapes.entries u.entries := by
  obtain ⟨sols, s', hsolve⟩ : ∃ sols s',
      (someOfTwo.solveAll : Run StandardSession _) {} = .ok sols s' :=
    Run.exists_of_returns (by decide +kernel)
  have hanswer := Run.answer_eq_ok.mpr ⟨s', hsolve⟩
  obtain ⟨henumerate, hcount, -, hcollect⟩ := limits_agree someOfTwo hanswer staleSession
  have hthree : (someOfTwo.count : Run StandardSession Nat).answer staleSession = .ok 3 := by
    decide +kernel
  have hsize : sols.size = 3 := Except.ok.inj (hcount.symm.trans hthree)
  refine ⟨sols, hanswer, hsize, henumerate 2, ?_⟩
  rw [hsize] at hcollect
  have hstorable : ∀ declaration ∈ someOfTwo.shapes.entries,
      Shape.Storable (declaration.2 ++ [2]) := by
    intro declaration hdeclared
    obtain rfl := List.mem_singleton.mp hdeclared
    exact ⟨[2, 1], rfl, rfl⟩
  rcases hcollect 2 fun _ => hstorable with hstacked | ⟨declaration, hdeclared, -, hlarge⟩
  · exact hstacked
  · obtain rfl := List.mem_singleton.mp hdeclared
    exact absurd (by decide) hlarge

end TensorLogic
