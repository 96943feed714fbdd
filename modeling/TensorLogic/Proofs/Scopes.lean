import TensorLogic.Proofs.Contraction
import TensorLogic.Proofs.Literals
import TensorLogic.Session.Recorded

/-!
# Calls in scope

A session refuses a clause over a literal that it never handed out, and a clause without
literals makes its formula unsatisfiable. `Takes` is a list of calls that keeps clear of
both: variables are numbered on from those that exist, and each clause has literals, all of
them of variables that exist when it is added. So a session takes all of them, and its
formula only grows.

`Scoped` says of a computation that this is all it asks of a session, however it ends. It is
said of two runs of one computation, from two sessions that differ in nothing but what they
do with clauses out of scope (`Session.AgreesInScope`). The two end alike, and that no
other clause is ever added is the reason: a run of which the outcome does not depend on an
answer never asks for it. The rules follow the way computations are put together; what a
tensor may be read for is `Tensor.Legible`.
-/

namespace TensorLogic

open Cnf Faithful

/-! ## Lists of calls -/

/-- The clauses that are added, in order. -/
def SessionCall.clause? : SessionCall → Option Clause
  | .ensure clause => some clause
  | .variable | .clear | .solve => none

section Calls

variable {σ : Type} [Session σ] [Faithful σ]

/-- The session takes the calls one after the other. A variable gets the number after all
others; a clause has literals, and only of variables that have a number by then. -/
inductive Takes : σ → List SessionCall → σ → Prop
  | nil (s : σ) : Takes s [] s
  | allocate {s s₁ s₂ : σ} {calls : List SessionCall} :
      Session.allocate s = .ok (formula s).fresh s₁ → formula s₁ = (formula s).allocate →
      Takes s₁ calls s₂ → Takes s (.variable :: calls) s₂
  | ensure {s s₁ s₂ : σ} {calls : List SessionCall} {clause : Clause} :
      clause ≠ [] → clause.all (owns (formula s).variables) →
      Session.ensure clause s = .ok () s₁ → formula s₁ = (formula s).ensure clause →
      Takes s₁ calls s₂ → Takes s (.ensure clause :: calls) s₂

namespace Takes

variable {s s₁ s₂ : σ} {calls calls' : List SessionCall}

theorem trans (h : Takes s calls s₁) (h' : Takes s₁ calls' s₂) : Takes s (calls ++ calls') s₂ := by
  induction h with
  | nil => exact h'
  | allocate hallocate hformula _ ih => exact .allocate hallocate hformula (ih h')
  | ensure hne howned hensure hformula _ ih => exact .ensure hne howned hensure hformula (ih h')

/-- No variable is lost, and the new ones are as many as were asked for. -/
theorem variables_eq (h : Takes s calls s₁) :
    (formula s₁).variables = (formula s).variables + calls.count .variable := by
  induction h with
  | nil => rfl
  | allocate _ hformula _ ih =>
      rw [ih, hformula, List.count_cons_self]
      simp only [Cnf.allocate]
      omega
  | ensure _ _ _ hformula _ ih =>
      rw [ih, hformula, Cnf.ensure, List.count_cons_of_ne (by simp)]

theorem le (h : Takes s calls s₁) : (formula s).variables ≤ (formula s₁).variables := by
  rw [h.variables_eq]
  omega

/-- No clause is lost, and the new ones stand behind the old ones. -/
theorem clauses_eq (h : Takes s calls s₁) :
    (formula s₁).clauses.toList =
      (formula s).clauses.toList ++ calls.filterMap SessionCall.clause? := by
  induction h with
  | nil => simp
  | allocate _ hformula _ ih =>
      rw [ih, hformula, Cnf.allocate]
      rfl
  | ensure _ _ _ hformula _ ih =>
      rw [ih, hformula, Cnf.ensure]
      simp [SessionCall.clause?]

end Takes

end Calls

/-- A session over the same states that differs in nothing but what it answers, and what it
does with a clause that has no literals or one of a variable that does not exist. -/
structure Session.AgreesInScope {σ : Type} (S : Session σ) [Session σ] [Faithful σ] : Prop where
  allocate : S.allocate = Session.allocate
  clear : S.clear = Session.clear
  ensure : ∀ (s : σ) (clause : Clause), clause ≠ [] →
    clause.all (owns (formula s).variables) → S.ensure clause s = Session.ensure clause s

/-! ## Computations -/

section Computations

variable {σ : Type} [Session σ] [Faithful σ]

/-- How a computation ends behind the calls that lead to `s`: with a result, or for a reason
of its own, or because there is no variable left. -/
def EndsAt {A : Type} (s : σ) (Q : Nat → A → Prop) : EStateM.Result Fault σ A → Prop
  | .ok a s' => s' = s ∧ Q (formula s).variables a
  | .error fault s' => s' = s ∨ Session.allocate s = .error fault s'

/-- From every session of `n` variables the computation makes calls that the session takes,
and the other run of it ends in the same way. -/
def Scoped {A : Type} (n : Nat) (Q : Nat → A → Prop) (x y : Run σ A) : Prop :=
  ∀ s, (formula s).variables = n → y s = x s ∧
    ∃ calls s₁, Takes s calls s₁ ∧ EndsAt s₁ Q (x s)

namespace Scoped

variable {A B C : Type} {n : Nat} {Q : Nat → A → Prop} {R : Nat → B → Prop} {x y : Run σ A}

theorem pure {a : A} (h : Q n a) : Scoped (σ := σ) n Q (pure a) (pure a) := by
  rintro s rfl
  exact ⟨rfl, [], s, .nil s, rfl, h⟩

theorem throw (fault : Fault) : Scoped (σ := σ) n Q (throw fault) (throw fault) :=
  fun s _ => ⟨rfl, [], s, .nil s, .inl rfl⟩

theorem bind {k l : A → Run σ B} (h : Scoped n Q x y)
    (hk : ∀ m a, n ≤ m → Q m a → Scoped m R (k a) (l a)) :
    Scoped n R (x >>= k) (y >>= l) := by
  rintro s rfl
  obtain ⟨hsame, calls, s₁, htakes, hends⟩ := h s rfl
  simp only [Bind.bind, EStateM.bind]
  rw [hsame]
  cases hx : x s with
  | ok a s' =>
      rw [hx] at hends
      obtain ⟨rfl, ha⟩ := hends
      obtain ⟨hsame', calls', s₂, htakes', hends'⟩ := hk _ a htakes.le ha s' rfl
      exact ⟨hsame', calls ++ calls', s₂, htakes.trans htakes', hends'⟩
  | error fault s' =>
      rw [hx] at hends
      exact ⟨rfl, calls, s₁, htakes, hends⟩

theorem mono {Q' : Nat → A → Prop} (h : Scoped n Q x y)
    (hQ : ∀ m a, n ≤ m → Q m a → Q' m a) : Scoped n Q' x y := by
  rintro s rfl
  obtain ⟨hsame, calls, s₁, htakes, hends⟩ := h s rfl
  refine ⟨hsame, calls, s₁, htakes, ?_⟩
  cases hx : x s <;> rw [hx] at hends
  · exact ⟨hends.1, hQ _ _ htakes.le hends.2⟩
  · exact hends

theorem lift {e : Except Fault A} (h : ∀ a, e = .ok a → Q n a) :
    Scoped (σ := σ) n Q (liftM e) (liftM e) := by
  cases e with
  | ok a => exact pure (h a rfl)
  | error fault => exact throw fault

theorem lift_bind (e : Except Fault A) {k l : A → Run σ B}
    (h : ∀ a, e = .ok a → Scoped n R (k a) (l a)) :
    Scoped n R (liftM e >>= k) (liftM e >>= l) := by
  cases e with
  | ok a => exact h a rfl
  | error fault => exact throw fault

theorem mapM {P : Nat → B → Prop} (hP : ∀ m m' b, m ≤ m' → P m b → P m' b)
    {f g : A → Run σ B} {as : List A}
    (h : ∀ m, n ≤ m → ∀ a ∈ as, Scoped m P (f a) (g a)) :
    Scoped n (fun m bs => ∀ b ∈ bs, P m b) (as.mapM f) (as.mapM g) := by
  induction as generalizing n with
  | nil => exact pure (by simp)
  | cons a as ih =>
      rw [List.mapM_cons, List.mapM_cons]
      refine (h n (Nat.le_refl n) a List.mem_cons_self).bind fun m b hm hb => ?_
      have hrest : ∀ m', m ≤ m' → ∀ c ∈ as, Scoped m' P (f c) (g c) := fun m' hm' c hc =>
        h m' (Nat.le_trans hm hm') c (List.mem_cons_of_mem _ hc)
      refine (ih hrest).bind fun m' bs hm' hbs => ?_
      exact pure (List.forall_mem_cons.mpr ⟨hP _ _ b hm' hb, hbs⟩)

theorem forM {f g : A → Run σ Unit} {as : List A}
    (h : ∀ m, n ≤ m → ∀ a ∈ as, Scoped m (fun _ _ => True) (f a) (g a)) :
    Scoped n (fun _ _ => True) (as.forM f) (as.forM g) := by
  induction as generalizing n with
  | nil => exact pure trivial
  | cons a as ih =>
      refine (h n (Nat.le_refl n) a List.mem_cons_self).bind fun m _ hm _ => ?_
      exact ih fun m' hm' c hc => h m' (Nat.le_trans hm hm') c (List.mem_cons_of_mem _ hc)

end Scoped

/-- A computation of a literal of the session. -/
abbrev ScopedCell (n : Nat) (x y : Run σ Literal) : Prop :=
  Scoped n (fun m l => owns m l) x y

theorem Scoped.mapCells {A : Type} {n : Nat} {f g : A → Run σ Literal} {as : List A}
    (h : ∀ m, n ≤ m → ∀ a ∈ as, ScopedCell m (f a) (g a)) :
    Scoped n (fun m ls => ∀ l ∈ ls, owns m l) (as.mapM f) (as.mapM g) :=
  Scoped.mapM (P := fun m l => owns m l) (fun _ _ _ hle hl => owns_mono hle hl) h

end Computations

/-! ## Requests -/

section Requests

variable {σ : Type} {S : Session σ} [Session σ] [Faithful σ] (hS : S.AgreesInScope) {n : Nat}
include hS

theorem scoped_allocate : ScopedCell n (Session.allocate : Run σ Literal) S.allocate := by
  rintro s rfl
  refine ⟨by rw [hS.allocate], ?_⟩
  rcases allocate_spec s with ⟨s₁, hallocate, hformula⟩ | ⟨v, s₁, hallocate⟩
  · refine ⟨[.variable], s₁, .allocate hallocate hformula (.nil s₁), ?_⟩
    rw [hallocate]
    refine ⟨rfl, ?_⟩
    rw [hformula]
    exact owns_fresh _
  · refine ⟨[], s, .nil s, ?_⟩
    rw [hallocate]
    exact .inr hallocate

theorem scoped_ensure {clause : Clause} (hne : clause ≠ []) (howned : clause.all (owns n)) :
    Scoped n (fun _ _ => True) (Session.ensure clause : Run σ Unit) (S.ensure clause) := by
  rintro s rfl
  obtain ⟨s₁, hensure, hformula⟩ := ensure_spec s clause howned
  refine ⟨hS.ensure s clause hne howned, [.ensure clause], s₁, ?_, ?_⟩
  · exact .ensure hne howned hensure hformula (.nil s₁)
  · rw [hensure]
    exact ⟨rfl, trivial⟩

/-- A gate over literals of the session, the clauses of which have literals. -/
theorem scoped_gate {clauses : Literal → List Clause} {inputs : List Literal}
    {f : List Bool → Bool} (h : Defines clauses inputs f)
    (hne : ∀ out, ∀ clause ∈ clauses out, clause ≠ []) (hinputs : ∀ x ∈ inputs, owns n x) :
    ScopedCell n (Clausal.gate clauses : Run σ Literal) (@Clausal.gate σ S clauses) := by
  refine (scoped_allocate hS).bind fun m out hm hout => ?_
  have hclauses : Scoped m (fun _ _ => True) ((clauses out).forM Session.ensure : Run σ Unit)
      ((clauses out).forM S.ensure) := by
    refine Scoped.forM fun m' hm' clause hclause => ?_
    refine scoped_ensure hS (hne out clause hclause) ?_
    refine h.owned (owns_mono hm' hout) (fun x hx => ?_) clause hclause
    exact owns_mono (Nat.le_trans hm hm') (hinputs x hx)
  exact hclauses.bind fun m' _ hm' _ => Scoped.pure (owns_mono hm' hout)

end Requests

/-! ## Tensors -/

namespace Tensor

/-- All that is read of the tensor are literals of the first `n` variables: all that it
stores are, or all at its indices, if nothing is read but through maps of the axes that
name an axis once. -/
def Legible (linear : Prop) (n : Nat) (t : Tensor Literal) : Prop :=
  (∀ l ∈ t.buffer, owns n l) ∨
    linear ∧ t.InBounds ∧ ∀ index ∈ t.shape.indices, ∀ l, t.get index = .ok l → owns n l

variable {α : Type} {linear : Prop} {m n : Nat} {t u : Tensor Literal}

theorem mem_of_cellAt {t : Tensor α} {pos : Nat} {cell : α} (h : t.cellAt pos = .ok cell) :
    cell ∈ t.buffer := by
  rw [cellAt] at h
  split at h
  next hcell =>
      cases h
      exact Array.mem_of_getElem? hcell
  next => cases h

theorem mem_of_get {t : Tensor α} {index : Index} {cell : α} (h : t.get index = .ok cell) :
    cell ∈ t.buffer := by
  obtain ⟨pos, -, h⟩ := bind_eq_ok.mp h
  exact mem_of_cellAt h

theorem Legible.mono (h : t.Legible linear m) (hmn : m ≤ n) : t.Legible linear n := by
  rcases h with h | ⟨hlinear, hbounds, h⟩
  · exact .inl fun l hl => owns_mono hmn (h l hl)
  · exact .inr ⟨hlinear, hbounds, fun index hindex l hl => owns_mono hmn (h index hindex l hl)⟩

theorem Legible.get (h : t.Legible linear n) {index : Index} {l : Literal}
    (hl : t.get index = .ok l) : owns n l := by
  rcases h with h | ⟨-, hbounds, h⟩
  · exact h l (mem_of_get hl)
  · by_cases hindex : index ∈ t.shape.indices
    · exact h index hindex l hl
    · rw [hbounds.get_error hindex] at hl
      split at hl <;> cases hl

theorem Legible.toScalar (h : t.Legible linear n) {l : Literal} (hl : t.toScalar = .ok l) :
    owns n l := by
  rw [Tensor.toScalar] at hl
  split at hl
  · exact h.get hl
  · cases hl

theorem Legible.constant {l : Literal} (h : owns n l) (shape : Shape) :
    (Tensor.constant shape l).Legible linear n :=
  .inl (by simpa [Tensor.constant] using h)

theorem buffer_of_dense {shape : Shape} {buffer : Array α} {t : Tensor α}
    (h : dense shape buffer = .ok t) : t.buffer = buffer := by
  obtain ⟨strides, -, -, rfl⟩ := dense_eq_ok h
  rfl

/-! ### Views -/

theorem Legible.reshape (h : t.Legible linear n) {target : Shape} {axes : List Axis}
    (honce : linear → (Axis.sources axes).Nodup) (hu : t.reshape target axes = .ok u) :
    u.Legible linear n := by
  rcases h with h | ⟨hlinear, hbounds, h⟩
  · refine .inl ?_
    obtain ⟨rfl, -, -⟩ := reshape_ok hu
    exact h
  · obtain ⟨hshape, hubounds, hget⟩ := reshape_spec hbounds (honce hlinear) hu
    refine .inr ⟨hlinear, hubounds, fun index hindex l hl => ?_⟩
    rw [hshape] at hindex
    obtain ⟨hmem, hsame⟩ := hget index hindex
    exact h _ hmem l (hsame ▸ hl)

theorem Legible.unconcat (h : t.Legible linear n) {parts : List (Tensor Literal)}
    (hparts : t.unconcat = .ok parts) : ∀ part ∈ parts, part.Legible linear n := by
  rcases h with h | ⟨hlinear, hbounds, h⟩
  · unfold Tensor.unconcat at hparts
    split at hparts
    · obtain ⟨_, -, hviews⟩ := bind_eq_ok.mp hparts
      intro part hpart
      obtain ⟨k, -, hview⟩ := (exists_of_forall₂ (mapM_eq_ok.mp hviews)).2 part hpart
      obtain ⟨offset, -, hview⟩ := bind_eq_ok.mp hview
      cases hview
      exact .inl h
    · cases hparts
  · rw [unconcat_eq hbounds] at hparts
    split at hparts
    next => cases hparts
    next extent hlast =>
        obtain ⟨_, -, hslices⟩ := bind_eq_ok.mp hparts
        cases hslices
        intro part hpart
        obtain ⟨k, hk, rfl⟩ := List.mem_map.mp hpart
        obtain ⟨hshape, hbounds', hget⟩ := slice_spec hbounds hlast (List.mem_range.mp hk)
        refine .inr ⟨hlinear, hbounds', fun index hindex l hl => ?_⟩
        rw [hshape] at hindex
        obtain ⟨hmem, hsame⟩ := hget index hindex
        exact h _ hmem l (hsame ▸ hl)

/-! ### What computed tensors store -/

theorem mem_buffer_of_fill {σ : Type} {shape : Shape} {f : Index → Run σ α} {r : Tensor α}
    {s s' : σ} (h : fill shape f s = .ok r s') {cell : α} (hcell : cell ∈ r.buffer) :
    ∃ index, Returns (f index) cell := by
  rw [fill, Shape.collect_eq, bind_map_left] at h
  obtain ⟨cells, s₁, hcells, h⟩ := Run.bind_eq_ok.mp h
  rw [buffer_of_dense (Run.lift_eq_ok.mp h).1, List.mem_toArray] at hcell
  obtain ⟨index, -, hindex⟩ := (exists_of_forall₂ (Run.mapM_ok hcells)).2 cell hcell
  exact ⟨index, hindex⟩

theorem Legible.stack {parts : List (Tensor Literal)}
    (h : ∀ part ∈ parts, part.Legible linear n) (hu : Tensor.stack parts = .ok u) :
    u.Legible linear n := by
  refine .inl fun l hl => ?_
  obtain ⟨shape, -, hfill⟩ := stack_ok hu
  obtain ⟨index, hcell⟩ := mem_buffer_of_fill hfill hl
  have hcell := Run.returns_lift hcell
  rw [stackCell] at hcell
  split at hcell
  next part hpart =>
      obtain ⟨k, -, hk⟩ := Option.bind_eq_some_iff.mp hpart
      exact (h part (by simpa using Array.mem_of_getElem? hk)).get hcell
  next => cases hcell

end Tensor

section Operations

open Tensor

variable {σ : Type} [Session σ] [Faithful σ] {linear : Prop} {n : Nat}

/-- A computation of a tensor over literals of the session. -/
abbrev ScopedTensor (linear : Prop) (n : Nat) (x y : Run σ (Tensor Literal)) : Prop :=
  Scoped n (fun m t => t.Legible linear m) x y

/-- Computations of a literal from literals, wherever those are of the session. -/
def ScopedCells (n : Nat) (f g : List Literal → Run σ Literal) : Prop :=
  ∀ m, n ≤ m → ∀ cells : List Literal, (∀ l ∈ cells, owns m l) → ScopedCell m (f cells) (g cells)

namespace Scoped

variable {shape : Shape} {f g : Index → Run σ Literal}

theorem fill (h : ∀ m, n ≤ m → ∀ index, ScopedCell m (f index) (g index)) :
    ScopedTensor linear n (Tensor.fill shape f) (Tensor.fill shape g) := by
  rw [Tensor.fill, Tensor.fill, Shape.collect_eq, Shape.collect_eq, bind_map_left,
    bind_map_left]
  refine (Scoped.mapCells fun m hm index _ => h m hm index).bind fun m cells _ hcells => ?_
  refine lift fun t ht => .inl fun l hl => hcells l ?_
  rwa [buffer_of_dense ht, List.mem_toArray] at hl

theorem grown (h : ∀ m, n ≤ m → ∀ index, ScopedCell m (f index) (g index)) (m : Nat)
    (hm : n ≤ m) (index : Index) :
    ScopedCell m (Tensor.grown shape f index) (Tensor.grown shape g index) :=
  (h m hm index).bind fun _ _ _ hcell => lift_bind _ fun _ _ => pure hcell

theorem generate (h : ∀ m, n ≤ m → ∀ index, ScopedCell m (f index) (g index)) :
    ScopedTensor linear n (Tensor.generate shape f) (Tensor.generate shape g) := by
  rw [generate_eq, generate_eq]
  split
  · exact throw _
  · exact lift_bind _ fun _ _ => fill h

theorem map {t : Tensor Literal} (ht : t.Legible linear n) {f g : Literal → Run σ Literal}
    (h : ∀ m, n ≤ m → ∀ l, owns m l → ScopedCell m (f l) (g l)) :
    ScopedTensor linear n (t.map f) (t.map g) := by
  rw [map_eq, map_eq]
  refine fill (grown fun m hm index => lift_bind _ fun l hl => h m hm l ?_)
  exact owns_mono hm (ht.get hl)

theorem map2 {t u : Tensor Literal} (ht : t.Legible linear n) (hu : u.Legible linear n)
    {f g : Literal → Literal → Run σ Literal}
    (h : ∀ m, n ≤ m → ∀ a b, owns m a → owns m b → ScopedCell m (f a b) (g a b)) :
    ScopedTensor linear n (Tensor.map2 t u f) (Tensor.map2 t u g) := by
  rw [map2_eq, map2_eq]
  split
  · refine fill (grown fun m hm index => lift_bind _ fun a ha => lift_bind _ fun b hb => ?_)
    exact h m hm a b (owns_mono hm (ht.get ha)) (owns_mono hm (hu.get hb))
  · exact throw _

theorem fold {t : Tensor Literal} (ht : t.Legible linear n) (axes : Nat)
    {f g : List Literal → Run σ Literal} (h : ScopedCells n f g) :
    ScopedTensor linear n (t.fold axes f) (t.fold axes g) := by
  rcases ht with hstored | hvisible
  · unfold Tensor.fold
    by_cases haxes : axes > t.rank
    · rw [if_pos haxes, if_pos haxes]
      exact throw _
    · rw [if_neg haxes, if_neg haxes]
      refine lift_bind _ fun offsets _ => lift_bind _ fun _ _ => ?_
      refine lift_bind _ fun _ _ => lift_bind _ fun _ _ => ?_
      refine fill fun m hm index => lift_bind _ fun base _ => lift_bind _ fun cells hcells => ?_
      refine h m hm cells fun l hl => owns_mono hm (hstored l ?_)
      obtain ⟨offset, -, hl⟩ := (exists_of_forall₂ (mapM_eq_ok.mp hcells)).2 l hl
      obtain ⟨pos, -, hl⟩ := bind_eq_ok.mp hl
      exact mem_of_cellAt hl
  · rw [fold_eq hvisible.2.1, fold_eq hvisible.2.1]
    split
    · refine lift_bind _ fun _ _ => lift_bind _ fun _ _ => lift_bind _ fun _ _ => ?_
      refine fill fun m hm index => lift_bind _ fun cells hcells =>
        h m hm cells fun l hl => owns_mono hm ?_
      obtain ⟨j, -, hl⟩ := (exists_of_forall₂ (mapM_eq_ok.mp hcells)).2 l hl
      exact Legible.get (.inr hvisible) hl
    · exact throw _

theorem reduce {combine aggregate combine' aggregate' : List Literal → Run σ Literal}
    (output : String) {operands : List (Labelled Literal)}
    (hoperands : ∀ operand ∈ operands, operand.tensor.Legible linear n)
    (hcombine : ScopedCells n combine combine') (haggregate : ScopedCells n aggregate aggregate') :
    ScopedTensor linear n (TensorLogic.reduce output operands combine aggregate)
      (TensorLogic.reduce output operands combine' aggregate') := by
  have hjoin : Scoped n (fun m joined => joined.tensor.Legible linear m)
      (join output operands combine) (join output operands combine') := by
    rw [Join.join_eq, Join.join_eq]
    refine lift_bind _ fun axes _ => lift_bind _ fun _ _ => ?_
    refine (generate fun m hm index => lift_bind _ fun cells hcells => ?_).bind
      fun m t _ ht => pure ht
    refine hcombine m hm cells fun l hl => owns_mono hm ?_
    obtain ⟨operand, hoperand, hl⟩ := (exists_of_forall₂ (mapM_eq_ok.mp hcells)).2 l hl
    exact (hoperands operand hoperand).get hl
  exact hjoin.bind fun m joined hm hjoined =>
    fold hjoined _ fun m' hm' => haggregate m' (Nat.le_trans hm hm')

end Scoped

end Operations

/-! ## Interpreters -/

section Interpreters

variable {σ : Type} [Session σ] [Faithful σ]

/-- Each operation of `I` computes a literal of the session from literals of the session,
and so does the operation of `J`, in the same way. -/
structure Interpreter.InScope (I J : Interpreter σ Literal) : Prop where
  lift : ∀ n value, ScopedCell n (I.lift value) (J.lift value)
  neg : ∀ {n a}, owns n a → ScopedCell n (I.neg a) (J.neg a)
  conj : ∀ {n a b}, owns n a → owns n b → ScopedCell n (I.conj a b) (J.conj a b)
  disj : ∀ {n a b}, owns n a → owns n b → ScopedCell n (I.disj a b) (J.disj a b)
  equ : ∀ {n a b}, owns n a → owns n b → ScopedCell n (I.equ a b) (J.equ a b)
  imp : ∀ {n a b}, owns n a → owns n b → ScopedCell n (I.imp a b) (J.imp a b)
  all : ∀ n, ScopedCells n I.all J.all
  any : ∀ n, ScopedCells n I.any J.any
  one : ∀ n, ScopedCells n I.one J.one
  eqs : ∀ n, ScopedCells n I.eqs J.eqs

namespace Interpreter.InScope

open Tensor

variable {I J : Interpreter σ Literal} (H : InScope I J) {linear : Prop} {n : Nat}
  {t u : Tensor Literal}

include H

theorem aggregate (n : Nat) (agg : Aggregate) :
    ScopedCells n (I.aggregate agg) (J.aggregate agg) := by
  cases agg with
  | all => exact H.all n
  | any => exact H.any n
  | one => exact H.one n
  | eqs => exact H.eqs n

theorem connect (n : Nat) (op : Connective) : ScopedCells n (I.connect op) (J.connect op) := by
  intro m hm cells hcells
  unfold Interpreter.connect
  split
  · exact Scoped.pure (hcells _ (by simp))
  · exact H.neg (hcells _ (by simp))
  · exact H.all n m hm _ hcells
  · exact H.any n m hm _ hcells
  · exact H.imp (hcells _ (by simp)) (hcells _ (by simp))
  · exact H.equ (hcells _ (by simp)) (hcells _ (by simp))
  · exact H.imp (hcells _ (by simp)) (hcells _ (by simp))
  · exact Scoped.throw _

theorem constant (shape : Shape) (value : Bool) :
    ScopedTensor linear n (I.constant shape value) (J.constant shape value) :=
  (H.lift n value).bind fun _ _ _ hl => Scoped.pure (Legible.constant hl shape)

theorem liftTensor (t : Tensor Bool) :
    ScopedTensor linear n (I.liftTensor t) (J.liftTensor t) := by
  rw [Interpreter.liftTensor, Interpreter.liftTensor, map_eq, map_eq]
  exact Scoped.fill (Scoped.grown fun m _ index =>
    Scoped.lift_bind _ fun value _ => H.lift m value)

theorem map (op : Connective) (ht : t.Legible linear n) :
    ScopedTensor linear n (I.map op t) (J.map op t) :=
  Scoped.map ht fun m hm l hl => H.connect n op m hm [l] (by simpa using hl)

theorem map2 (op : Connective) (ht : t.Legible linear n) (hu : u.Legible linear n) :
    ScopedTensor linear n (I.map2 op t u) (J.map2 op t u) :=
  Scoped.map2 ht hu fun m hm a b ha hb =>
    H.connect n op m hm [a, b] (by simpa using ⟨ha, hb⟩)

theorem fold (agg : Aggregate) (axes : Nat) (ht : t.Legible linear n) :
    ScopedTensor linear n (I.fold agg axes t) (J.fold agg axes t) :=
  Scoped.fold ht axes (H.aggregate n agg)

theorem reduce (agg : Aggregate) (output : String) (op : Connective)
    {operands : List (Labelled Literal)}
    (h : ∀ operand ∈ operands, operand.tensor.Legible linear n) :
    ScopedTensor linear n (I.reduce agg output op operands) (J.reduce agg output op operands) :=
  Scoped.reduce output h (H.connect n op) (H.aggregate n agg)

end Interpreter.InScope

end Interpreters

/-! ## Gates -/

namespace Clausal

variable {σ : Type} {S : Session σ} [Session σ] [Faithful σ] (hS : S.AgreesInScope) {n : Nat}
  {a b : Literal}

include hS

theorem scoped_lift (n : Nat) (value : Bool) :
    ScopedCell n (lift value : Run σ Literal) (@lift σ S value) := by
  rw [lift_eq, @lift_eq σ S]
  exact scoped_gate hS (defines_lift value) (by simp [liftClauses]) (by simp)

theorem scoped_andGate (n : Nat) : ScopedCells n (andGate : _ → Run σ Literal) (@andGate σ S) := by
  intro m _ inputs hinputs
  rw [andGate_eq, @andGate_eq σ S]
  refine scoped_gate hS (defines_and inputs) (fun out clause hclause => ?_) hinputs
  rcases List.mem_append.mp hclause with hclause | hclause
  · obtain ⟨x, -, rfl⟩ := List.mem_map.mp hclause
    simp
  · cases List.mem_singleton.mp hclause
    simp

theorem scoped_orGate (n : Nat) : ScopedCells n (orGate : _ → Run σ Literal) (@orGate σ S) := by
  intro m _ inputs hinputs
  rw [orGate_eq, @orGate_eq σ S]
  refine scoped_gate hS (defines_or inputs) (fun out clause hclause => ?_) hinputs
  rcases List.mem_append.mp hclause with hclause | hclause
  · obtain ⟨x, -, rfl⟩ := List.mem_map.mp hclause
    simp
  · cases List.mem_singleton.mp hclause
    simp

theorem scoped_equGate (ha : owns n a) (hb : owns n b) :
    ScopedCell n (equGate a b : Run σ Literal) (@equGate σ S a b) := by
  rw [equGate_eq, @equGate_eq σ S]
  exact scoped_gate hS (defines_equ a b) (by simp [equClauses]) (by simpa using ⟨ha, hb⟩)

theorem scoped_conj (ha : owns n a) (hb : owns n b) :
    ScopedCell n (andGate [a, b] : Run σ Literal) (@andGate σ S [a, b]) :=
  scoped_andGate hS n n (Nat.le_refl n) [a, b] (by simpa using ⟨ha, hb⟩)

theorem scoped_disj (ha : owns n a) (hb : owns n b) :
    ScopedCell n (orGate [a, b] : Run σ Literal) (@orGate σ S [a, b]) :=
  scoped_orGate hS n n (Nat.le_refl n) [a, b] (by simpa using ⟨ha, hb⟩)

theorem scoped_all (n : Nat) : ScopedCells n (all : _ → Run σ Literal) (@all σ S) := by
  intro m hm inputs hinputs
  match inputs with
  | [] => exact scoped_lift hS m true
  | [l] => exact Scoped.pure (hinputs l (by simp))
  | _ :: _ :: _ => exact scoped_andGate hS n m hm _ hinputs

theorem scoped_any (n : Nat) : ScopedCells n (any : _ → Run σ Literal) (@any σ S) := by
  intro m hm inputs hinputs
  match inputs with
  | [] => exact scoped_lift hS m false
  | [l] => exact Scoped.pure (hinputs l (by simp))
  | _ :: _ :: _ => exact scoped_orGate hS n m hm _ hinputs

/-- The scan keeps nothing but literals of the session, and it adds none of another kind. -/
theorem scoped_scanOne {one : Literal} {two : Option Literal} {cells : List Literal}
    (hone : owns n one) (htwo : ∀ l ∈ two, owns n l) (hcells : ∀ l ∈ cells, owns n l) :
    Scoped n (fun m seen => owns m seen.1 ∧ ∀ l ∈ seen.2, owns m l)
      ((gates : Gates σ Literal).scanOne one two cells)
      ((@gates σ S).scanOne one two cells) := by
  induction cells generalizing n one two with
  | nil => exact Scoped.pure ⟨hone, htwo⟩
  | cons a cells ih =>
      obtain ⟨ha, hcells⟩ := List.forall_mem_cons.mp hcells
      refine (scoped_conj hS hone ha).bind fun m both hm hboth => ?_
      -- what follows once the second literal is known, whichever way it came about
      have hnext : ∀ m' two', m ≤ m' → owns m' two' →
          Scoped m' (fun m seen => owns m seen.1 ∧ ∀ l ∈ seen.2, owns m l)
            (do
              let one ← (gates : Gates σ Literal).disj one a
              (gates : Gates σ Literal).scanOne one (some two') cells)
            (do
              let one ← (@gates σ S).disj one a
              (@gates σ S).scanOne one (some two') cells) := by
        intro m' two' hm' htwo'
        have hle := Nat.le_trans hm hm'
        refine (scoped_disj hS (owns_mono hle hone) (owns_mono hle ha)).bind
          fun m'' one' hm'' hone' => ih hone' (fun l hl => ?_) fun l hl => ?_
        · cases hl
          exact owns_mono hm'' htwo'
        · exact owns_mono (Nat.le_trans hle hm'') (hcells l hl)
      cases two with
      | none => exact hnext m both (Nat.le_refl m) hboth
      | some two => exact (scoped_disj hS (owns_mono hm (htwo two rfl)) hboth).bind hnext

theorem scoped_one (n : Nat) :
    ScopedCells n (gates : Gates σ Literal).one (@gates σ S).one := by
  intro m _ cells hcells
  match cells with
  | [] => exact scoped_lift hS m false
  | a :: rest =>
      obtain ⟨ha, hrest⟩ := List.forall_mem_cons.mp hcells
      refine (scoped_scanOne hS ha (by simp) hrest).bind fun m' seen hm' hseen => ?_
      obtain ⟨one, two⟩ := seen
      cases two with
      | none => exact Scoped.pure hseen.1
      | some two =>
          exact scoped_conj hS hseen.1 (owns_neg (hseen.2 two rfl))

theorem scoped_eqs (n : Nat) :
    ScopedCells n ((gates : Gates σ Literal).eqs all) ((@gates σ S).eqs (@all σ S)) := by
  intro m _ cells hcells
  match cells with
  | [] => exact scoped_lift hS m true
  | a :: rest =>
      obtain ⟨ha, hrest⟩ := List.forall_mem_cons.mp hcells
      have hpairs : Scoped m (fun m' ls => ∀ l ∈ ls, owns m' l)
          (rest.mapM ((gates : Gates σ Literal).equ a)) (rest.mapM ((@gates σ S).equ a)) := by
        refine Scoped.mapCells fun m' hm' b hb => ?_
        exact scoped_equGate hS (owns_mono hm' ha) (owns_mono hm' (hrest b hb))
      exact hpairs.bind fun m' ls _ hls => scoped_all hS m' m' (Nat.le_refl m') ls hls

/-- Formulas as literals ask a session for nothing out of scope. -/
theorem literals_inScope : Interpreter.InScope (literals (σ := σ)) (@literals σ S) where
  lift := scoped_lift hS
  neg ha := Scoped.pure (owns_neg ha)
  conj := scoped_conj hS
  disj := scoped_disj hS
  equ := scoped_equGate hS
  imp ha hb := scoped_disj hS (owns_neg ha) hb
  all := scoped_all hS
  any := scoped_any hS
  one := scoped_one hS
  eqs := scoped_eqs hS

end Clausal

end TensorLogic
