import TensorLogic.Problem.Models
import TensorLogic.Proofs.Closure
import TensorLogic.Proofs.Enumeration

/-!
# Problems do not see what a session held before

Every request about a problem begins by clearing the session. If a session keeps nothing
of what it held before that could show later (`Forgetful`), then the answer is the same
whatever it held: clauses of another problem, blocking clauses of an enumeration that was
dropped, or nothing. The proof compares two runs. They are the same computation from two
states, so it is enough that each request to the session keeps the states
indistinguishable; formulas make no others (`Interpreter.Closed.eval`).

The requests that run an enumeration to an end clear the session behind it as well. They
leave it empty whenever they answer or refuse, at whichever step that happens
(`LeavesEmpty`). Main statement: `session_isolated`.
-/

namespace TensorLogic

open Faithful

variable {σ α β : Type}

namespace Run

/-- What the computation answers from a state. -/
def answer (x : Run σ α) (s : σ) : Except Fault α :=
  match x s with
  | .ok a _ => .ok a
  | .error fault _ => .error fault

/-- The state that the computation leaves, also when it fails. -/
def leaves (x : Run σ α) (s : σ) : σ :=
  match x s with
  | .ok _ s' => s'
  | .error _ s' => s'

end Run

/-! ## Two runs of one computation -/

/-- One answer, and states that belong together. -/
def SameEnd (R : σ → σ → Prop) : EStateM.Result Fault σ α → EStateM.Result Fault σ α → Prop
  | .ok a s, .ok b t => a = b ∧ R s t
  | .error f s, .error g t => f = g ∧ R s t
  | _, _ => False

/-- From states that belong together the computation ends the same way. -/
def Respects (R : σ → σ → Prop) (x : Run σ α) : Prop :=
  ∀ s t, R s t → SameEnd R (x s) (x t)

/-- From any two states the computation ends the same way. -/
def Forgets (R : σ → σ → Prop) (x : Run σ α) : Prop :=
  ∀ s t, SameEnd R (x s) (x t)

section

variable {R : σ → σ → Prop} {x : Run σ α} {k : α → Run σ β}

theorem SameEnd.answer_eq {s t : σ} (h : SameEnd R (x s) (x t)) : x.answer s = x.answer t := by
  rw [Run.answer, Run.answer]
  cases hs : x s <;> cases ht : x t <;> rw [hs, ht] at h
  case ok.ok => exact congrArg Except.ok h.1
  case error.error => exact congrArg Except.error h.1
  all_goals exact h.elim

theorem SameEnd.leaves {s t : σ} (h : SameEnd R (x s) (x t)) : R (x.leaves s) (x.leaves t) := by
  rw [Run.leaves, Run.leaves]
  cases hs : x s <;> cases ht : x t <;> rw [hs, ht] at h
  case ok.ok => exact h.2
  case error.error => exact h.2
  all_goals exact h.elim

theorem SameEnd.bind {s t : σ} (h : SameEnd R (x s) (x t)) (hk : ∀ a, Respects R (k a)) :
    SameEnd R ((x >>= k) s) ((x >>= k) t) := by
  simp only [Bind.bind, EStateM.bind]
  cases hs : x s <;> cases ht : x t <;> rw [hs, ht] at h
  case ok.ok a s' b t' =>
    obtain ⟨rfl, hst⟩ := h
    exact hk a s' t' hst
  case error.error => exact h
  all_goals exact h.elim

/-- What is done about a failure is done the same way on both sides. -/
theorem SameEnd.tryCatch {s t : σ} {handle : Fault → Run σ α} (h : SameEnd R (x s) (x t))
    (hhandle : ∀ fault, Respects R (handle fault)) :
    SameEnd R ((MonadExcept.tryCatch x handle) s) ((MonadExcept.tryCatch x handle) t) := by
  simp only [MonadExcept.tryCatch, MonadExceptOf.tryCatch, EStateM.tryCatch, tryCatchThe]
  cases hs : x s <;> cases ht : x t <;> rw [hs, ht] at h
  case ok.ok => exact h
  case error.error f s' g t' =>
    obtain ⟨rfl, hst⟩ := h
    exact hhandle f s' t' hst
  all_goals exact h.elim

theorem respects_closed (R : σ → σ → Prop) : Run.Closed fun _ x => Respects R x where
  pure _ _ _ h := ⟨rfl, h⟩
  throw _ _ _ h := ⟨rfl, h⟩
  bind hx hk s t h := (hx s t h).bind hk

theorem Forgets.respects (h : Forgets R x) : Respects R x :=
  fun s t _ => h s t

theorem Forgets.bind (h : Forgets R x) (hk : ∀ a, Respects R (k a)) : Forgets R (x >>= k) :=
  fun s t => (h s t).bind hk

end

/-! ## Sessions that keep nothing -/

/-- A session whose answers depend only on what was asked of it since it was last cleared.
`Same` relates states that no request can tell apart. -/
class Forgetful (σ : Type) [Session σ] [Faithful σ] where
  Same : σ → σ → Prop
  same_formula : ∀ {s t}, Same s t → formula s = formula t
  same_clear : ∀ s t, Same (Session.clear s) (Session.clear t)
  allocate : Respects Same Session.allocate
  ensure : ∀ clause, Respects Same (Session.ensure clause)
  solve : Respects Same Session.solve

/-- What a session counts are the variables and clauses of its formula. -/
class Counted (σ : Type) [Session σ] [Faithful σ] : Prop where
  variables_eq : ∀ s : σ, Session.variables s = (formula s).variables
  clauses_eq : ∀ s : σ, Session.clauses s = (formula s).clauses.size

/-- Whatever a computation is, from one state it ends one way. -/
theorem respects_eq (x : Run σ α) : Respects Eq x := by
  rintro s _ rfl
  cases x s <;> exact ⟨rfl, rfl⟩

instance : Forgetful StandardSession where
  Same := Eq
  same_formula h := congrArg formula h
  same_clear _ _ := rfl
  allocate := respects_eq _
  ensure _ := respects_eq _
  solve := respects_eq _

instance : Counted StandardSession where
  variables_eq _ := rfl
  clauses_eq _ := rfl

instance : Counted RecordedSession where
  variables_eq _ := rfl
  clauses_eq _ := rfl

/-! ## Requests about a problem -/

section Requests

variable [Session σ] [Faithful σ] [Forgetful σ]

namespace Forgetful

theorem closed : Run.Closed fun _ (x : Run σ _) => Respects Same x :=
  respects_closed Same

theorem session_closed : Session.Closed fun _ (x : Run σ _) => Respects Same x where
  toClosed := closed
  allocate := allocate
  ensure := ensure

theorem clear_forgets : Forgets Same (modify Session.clear : Run σ PUnit) :=
  fun s t => ⟨rfl, same_clear s t⟩

end Forgetful

open Forgetful (Same closed session_closed clear_forgets)

namespace Models

theorem answer_respects :
    Respects Same (Models.answer : Run σ (Except Error (Option Assignment))) := by
  intro s t h
  refine SameEnd.tryCatch ?_ fun fault => ?_
  · exact closed.bind Forgetful.solve (fun a => closed.pure (Except.ok a)) s t h
  · cases fault with
    | refused cause => exact closed.pure _
    | trapped cause => exact closed.throw _

theorem next_respects (m : Models) : Respects Same (m.next : Run σ (Step × Models)) := by
  unfold Models.next
  split
  · exact closed.pure _
  · refine closed.bind answer_respects fun answer => ?_
    split
    · exact closed.pure _
    · exact closed.pure _
    · refine closed.lift_bind _ fun solution => closed.lift_bind _ fun cells => ?_
      split
      · exact closed.pure _
      · refine closed.lift_bind _ fun clause => ?_
        exact closed.bind (Forgetful.ensure clause) fun _ => closed.pure _

theorem take_respects (limit : Nat) (m : Models) (acc : Array Solution) :
    Respects Same (Models.take limit m acc : Run σ (Array Solution)) := by
  induction limit generalizing m acc with
  | zero => exact closed.pure acc
  | succ limit ih =>
      refine closed.bind (next_respects m) fun step => ?_
      split
      · exact closed.pure acc
      · exact closed.throw _
      · exact ih _ _

theorem foldAll_respects {step : β → Solution → β} (fuel : Nat) (m : Models) (acc : β) :
    Respects Same (Models.foldAll step fuel m acc : Run σ β) := by
  induction fuel generalizing m acc with
  | zero => exact closed.throw _
  | succ fuel ih =>
      refine closed.bind (next_respects m) fun next => ?_
      split
      · exact closed.pure acc
      · exact closed.throw _
      · exact ih _ _

theorem foldSolutions_respects (m : Models) (step : β → Solution → β) (acc : β) :
    Respects Same (m.foldSolutions step acc : Run σ β) :=
  closed.lift_bind _ fun _ => foldAll_respects _ m acc

end Models

namespace Problem

theorem allocate_respects (p : Problem) :
    Respects Same (p.allocate : Run σ (Bindings Literal)) := by
  have htensor : ∀ shape, Respects Same (Session.tensor shape : Run σ (Tensor Literal)) :=
    fun shape => closed.generate (fun _ => Forgetful.allocate) shape
  refine closed.bind (closed.mapM (fun entry => ?_) _) fun bindings => closed.pure _
  exact closed.bind (htensor entry.2) fun t => closed.pure (entry.1, t)

theorem compile_forgets (p : Problem) : Forgets Same (p.compile : Run σ (Bindings Literal)) := by
  refine clear_forgets.bind fun _ => closed.bind p.allocate_respects fun literals => ?_
  refine closed.bind (session_closed.literals.compute literals p.formula) fun holds => ?_
  exact closed.bind (Forgetful.ensure [holds]) fun _ => closed.pure literals

theorem models_forgets (p : Problem) : Forgets Same (p.models : Run σ Models) :=
  p.compile_forgets.bind fun _ => closed.pure _

theorem solveOne_forgets (p : Problem) : Forgets Same (p.solveOne : Run σ (Option Solution)) := by
  refine p.compile_forgets.bind fun literals => closed.bind Forgetful.solve fun answer => ?_
  split
  · exact closed.pure none
  · exact closed.lift_bind _ fun solution => closed.pure (some solution)

/-- Clearing the session behind a computation gives nothing away about it. -/
theorem thenClear_forgets {x : Run σ α} (hx : Forgets Same x) : Forgets Same (thenClear x) := by
  have hclear := (clear_forgets (σ := σ)).respects
  intro s t
  refine SameEnd.tryCatch ?_ fun fault => ?_
  · exact (hx s t).bind fun a => closed.bind hclear fun _ => closed.pure a
  · cases fault with
    | refused cause => exact closed.bind hclear fun _ => closed.throw _
    | trapped cause => exact closed.throw _

theorem enumerate_forgets (p : Problem) (limit : Option Nat) :
    Forgets Same (p.enumerate limit : Run σ (Array Solution)) := by
  refine thenClear_forgets (p.models_forgets.bind fun m => ?_)
  cases limit with
  | none => exact m.foldSolutions_respects _ _
  | some limit => exact Models.take_respects limit m _

theorem count_forgets (p : Problem) : Forgets Same (p.count : Run σ Nat) :=
  thenClear_forgets (p.models_forgets.bind fun m => m.foldSolutions_respects _ _)

theorem collect_forgets (p : Problem) (limit : Option Nat) :
    Forgets Same (p.collect limit : Run σ Solution) :=
  (p.enumerate_forgets limit).bind fun _ => closed.lift _

end Problem

end Requests

/-! ## What is left behind -/

section Behind

variable [Session σ]

/-- From wherever it starts, the computation leaves no variable and no clause. It may
answer or be refused; only a trap is not spoken about, since it ends the program. -/
def LeavesEmpty (x : Run σ α) : Prop :=
  ∀ s, (∀ cause, x.answer s ≠ .error (.trapped cause)) →
    Session.variables (x.leaves s) = 0 ∧ Session.clauses (x.leaves s) = 0

/-- What follows without touching the session leaves what was left before. -/
theorem Run.leaves_lift_bind {σ : Type} (x : Run σ α) (f : α → Except Fault β) (s : σ) :
    (x >>= fun a => (liftM (f a) : Run σ β)).leaves s = x.leaves s := by
  simp only [Run.leaves, Bind.bind, EStateM.bind]
  cases x s with
  | error => rfl
  | ok a s' => cases h : f a <;> simp only [h] <;> rfl

theorem LeavesEmpty.lift_bind {x : Run σ α} (hx : LeavesEmpty x) (f : α → Except Fault β) :
    LeavesEmpty (x >>= fun a => liftM (f a)) := by
  intro s htrap
  rw [Run.leaves_lift_bind]
  refine hx s fun cause hcause => htrap cause ?_
  simp only [Run.answer, Bind.bind, EStateM.bind] at hcause ⊢
  cases hs : x s with
  | ok => rw [hs] at hcause; cases hcause
  | error fault s' =>
      rw [hs] at hcause
      exact congrArg Except.error (Except.error.inj hcause)

variable [Faithful σ] [Counted σ]

theorem counts_clear (s : σ) :
    Session.variables (Session.clear s) = 0 ∧ Session.clauses (Session.clear s) = 0 := by
  rw [Counted.variables_eq, Counted.clauses_eq, formula_clear]
  exact ⟨rfl, rfl⟩

theorem Problem.thenClear_leavesEmpty (x : Run σ α) : LeavesEmpty (thenClear x) := by
  intro s htrap
  cases hx : x s with
  | ok a s' =>
      have hrun : thenClear x s = .ok a (Session.clear s') := thenClear_ok hx
      rw [Run.leaves, hrun]
      exact counts_clear s'
  | error fault s' =>
      cases fault with
      | refused cause =>
          rw [Run.leaves, thenClear_refused hx]
          exact counts_clear s'
      | trapped cause =>
          have hrun : (thenClear x).answer s = .error (.trapped cause) := by
            simp only [Run.answer, thenClear, tryCatch, tryCatchThe, MonadExceptOf.tryCatch,
              EStateM.tryCatch, Bind.bind, EStateM.bind, hx]
            rfl
          exact absurd hrun (htrap cause)

end Behind

/-- What a session held before a request cannot be told from the answer. The compiled
formula has the same variables and clauses from every state; all the answers agree; and
the requests that exhaust an enumeration leave nothing, whatever they end with. Only the
first part needs a solver that keeps nothing to itself. -/
theorem session_isolated [Session σ] [Faithful σ] [Counted σ] (p : Problem)
    (limit : Option Nat) :
    (∀ [Forgetful σ] (s t : σ),
      (p.compile : Run σ _).answer s = p.compile.answer t ∧
      formula ((p.compile : Run σ _).leaves s) = formula ((p.compile : Run σ _).leaves t) ∧
      (p.solveOne : Run σ _).answer s = p.solveOne.answer t ∧
      (p.enumerate limit : Run σ _).answer s = (p.enumerate limit).answer t ∧
      (p.solveAll : Run σ _).answer s = p.solveAll.answer t ∧
      (p.count : Run σ _).answer s = p.count.answer t ∧
      (p.collect limit : Run σ _).answer s = (p.collect limit).answer t) ∧
    LeavesEmpty (p.enumerate limit : Run σ _) ∧ LeavesEmpty (p.solveAll : Run σ _) ∧
    LeavesEmpty (p.count : Run σ _) ∧ LeavesEmpty (p.collect limit : Run σ _) := by
  refine ⟨fun s t => ⟨?_, ?_, ?_, ?_, ?_, ?_, ?_⟩, ?_, ?_, ?_, ?_⟩
  · exact (p.compile_forgets s t).answer_eq
  · exact Forgetful.same_formula (p.compile_forgets s t).leaves
  · exact (p.solveOne_forgets s t).answer_eq
  · exact (p.enumerate_forgets limit s t).answer_eq
  · exact (p.enumerate_forgets none s t).answer_eq
  · exact (p.count_forgets s t).answer_eq
  · exact (p.collect_forgets limit s t).answer_eq
  · exact Problem.thenClear_leavesEmpty _
  · exact Problem.thenClear_leavesEmpty _
  · exact Problem.thenClear_leavesEmpty _
  · exact (Problem.thenClear_leavesEmpty _).lift_bind _

/-- A session in the middle of something else: three variables, and clauses that no
assignment satisfies. -/
def staleSession : StandardSession where
  formula := { «variables» := 3, clauses := #[[1, -2], [-1], [2]] }

/-- A stale session whose solver answers once more and then fails. -/
def failingSession : RecordedSession where
  formula := staleSession.formula
  budget := some 1

theorem session_isolated_stale :
    (someOfTwo.count : Run StandardSession Nat).answer staleSession = .ok 3 ∧
    Session.variables ((someOfTwo.count : Run StandardSession Nat).leaves staleSession) = 0 ∧
    Session.clauses ((someOfTwo.count : Run StandardSession Nat).leaves staleSession) = 0 ∧
    (someOfTwo.count : Run RecordedSession Nat).answer failingSession =
      .error (.refused (.engine "budget exhausted")) ∧
    Session.variables ((someOfTwo.count : Run RecordedSession Nat).leaves failingSession) = 0 ∧
    Session.clauses ((someOfTwo.count : Run RecordedSession Nat).leaves failingSession) = 0 := by
  obtain ⟨hsame, -, -, hcount, -⟩ := session_isolated (σ := StandardSession) someOfTwo none
  obtain ⟨-, -, -, -, -, hanswer, -⟩ := hsame staleSession {}
  have hfresh : (someOfTwo.count : Run StandardSession Nat).answer {} = .ok 3 := by
    decide +kernel
  rw [hfresh] at hanswer
  have hempty := hcount staleSession fun cause hcause => by
    rw [hanswer] at hcause
    cases hcause
  obtain ⟨-, -, -, hcount, -⟩ := session_isolated (σ := RecordedSession) someOfTwo none
  have hfails : (someOfTwo.count : Run RecordedSession Nat).answer failingSession =
      .error (.refused (.engine "budget exhausted")) := by
    decide +kernel
  have hempty' := hcount failingSession fun cause hcause => by
    rw [hfails] at hcause
    cases hcause
  exact ⟨hanswer, hempty.1, hempty.2, hfails, hempty'.1, hempty'.2⟩

end TensorLogic
