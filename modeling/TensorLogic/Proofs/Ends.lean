import TensorLogic.Proofs.Cursor
import TensorLogic.Proofs.Isolation

/-!
# Every enumeration comes to an end

A run of all steps is given fuel, and is stopped by a trap if the fuel runs out. It never
does over a sound solver: what has been answered so far disagrees on the declared cells,
pair by pair, so there are no more answers than ways to fill these cells
(`Answered.length_le`), and one more step than that is in the tank. No other step traps
either, since the cells of a compiled problem can be read under every answer.

So once a problem is compiled, the requests that exhaust it answer or are refused, and leave
the session empty whichever it is (`enumeration_leaves_empty`).
-/

namespace TensorLogic

open Cnf Faithful

variable {σ α β : Type}

namespace Run

/-- From this state the computation answers or is refused. -/
def Untrapped (x : Run σ α) (s : σ) : Prop :=
  ∀ cause, x.answer s ≠ .error (.trapped cause)

namespace Untrapped

variable {x : Run σ α} {k : α → Run σ β} {s s' : σ} {a : α}

theorem of_ok (h : x s = .ok a s') : x.Untrapped s := by
  intro cause hcause
  rw [answer, h] at hcause
  cases hcause

theorem of_refused {cause : Error} (h : x s = .error (.refused cause) s') : x.Untrapped s := by
  intro other hcause
  rw [answer, h] at hcause
  cases hcause

theorem bind (h : x s = .ok a s') (hk : (k a).Untrapped s') : (x >>= k).Untrapped s := by
  intro cause hcause
  refine hk cause ?_
  simpa only [answer, Bind.bind, EStateM.bind, h] using hcause

theorem thenClear [Session σ] (h : x.Untrapped s) : (Problem.thenClear x).Untrapped s := by
  cases hx : x s with
  | ok a s' => exact of_ok (thenClear_ok hx)
  | error fault s' =>
      cases fault with
      | refused cause => exact of_refused (thenClear_refused hx)
      | trapped cause =>
          refine absurd ?_ (h cause)
          rw [answer, hx]

end Untrapped

end Run

/-! ## The steps of an enumeration -/

section

variable [Session σ] [SoundSession σ] {p : Problem} {literals : Bindings Literal} {F : Cnf}
  {m : Models} {answers : List Assignment} {s : σ}

namespace Answered

/-- There are no more answers than ways to fill the declared cells. -/
theorem length_le (h : Answered p literals F m answers s) :
    answers.length ≤ Nat.pow 2 p.declaredCells := by
  rw [← List.length_map (f := fun a : Assignment => a.front p.declaredCells)]
  refine length_le_of_nodup h.nodup fun cells hcells => ?_
  obtain ⟨a, -, rfl⟩ := List.mem_map.mp hcells
  exact a.length_front _

/-- A step answers, and a step with a solution has one more answer behind it. -/
theorem step_cases (hl : LaidOut p literals F) (h : Answered p literals F m answers s) :
    (∃ m' s', m.next s = .ok (.finished, m') s') ∨
    (∃ cause m' s', m.next s = .ok (.failed cause, m') s') ∨
    ∃ b m' s' a, m.next s = .ok (.solution b, m') s' ∧
      Answered p literals F m' (answers ++ [a]) s' := by
  obtain ⟨step, m', s', more, hnext, -, hlisted, h'⟩ := h.next_spec hl
  cases step with
  | finished => exact .inl ⟨m', s', hnext⟩
  | failed cause => exact .inr (.inl ⟨cause, m', s', hnext⟩)
  | solution b =>
      cases hlisted with
      | @cons _ a _ _ _ hrest =>
          cases hrest
          exact .inr (.inr ⟨b, m', s', a, hnext, h'⟩)

theorem take_untrapped (hl : LaidOut p literals F) (h : Answered p literals F m answers s)
    (limit : Nat) (acc : Array Solution) : (Models.take limit m acc : Run σ _).Untrapped s := by
  induction limit generalizing m answers s acc with
  | zero => exact .of_ok (a := acc) rfl
  | succ limit ih =>
      rcases h.step_cases hl with ⟨m', s', hnext⟩ | ⟨cause, m', s', hnext⟩ |
        ⟨b, m', s', a, hnext, h'⟩
      · exact .bind hnext (.of_ok rfl)
      · exact .bind hnext (.of_refused rfl)
      · exact .bind hnext (ih h' _)

/-- The fuel does not run out, since every step but the last leaves one answer fewer. -/
theorem foldAll_untrapped (step : β → Solution → β) (hl : LaidOut p literals F)
    (h : Answered p literals F m answers s) {fuel : Nat}
    (hfuel : Nat.pow 2 p.declaredCells < fuel + answers.length) (acc : β) :
    (Models.foldAll step fuel m acc : Run σ β).Untrapped s := by
  induction fuel generalizing m answers s acc with
  | zero =>
      have hle := h.length_le
      omega
  | succ fuel ih =>
      rcases h.step_cases hl with ⟨m', s', hnext⟩ | ⟨cause, m', s', hnext⟩ |
        ⟨b, m', s', a, hnext, h'⟩
      · exact .bind hnext (.of_ok rfl)
      · exact .bind hnext (.of_refused rfl)
      · refine .bind hnext (ih h' ?_ _)
        rw [List.length_append, List.length_singleton]
        omega

end Answered

/-! ## Requests about a compiled problem -/

variable {start : Models} {s₁ : σ}

theorem Models.start_answered (h : p.models s = .ok start s₁) :
    ∃ literals, LaidOut p literals (formula s₁) ∧
      Answered p literals (formula s₁) start [] s₁ := by
  obtain ⟨literals, s₁', hcompile, hstart⟩ := Run.bind_eq_ok.mp h
  cases hstart
  exact ⟨literals, laidOut_of_compile hcompile, Answered.start rfl⟩

theorem Models.foldSolutions_untrapped (step : β → Solution → β) (acc : β)
    (h : p.models s = .ok start s₁) : (start.foldSolutions step acc : Run σ β).Untrapped s₁ := by
  obtain ⟨literals, hl, hanswered⟩ := Models.start_answered h
  have hfuel : Nat.pow 2 p.declaredCells <
      Nat.pow 2 (literalsFrom 1 p.declaredCells).length + 1 + ([] : List Assignment).length := by
    rw [length_literalsFrom]
    exact Nat.lt_succ_self _
  have hlist : (liftM start.literals.literalList : Run σ (List Literal)) s₁ =
      .ok (literalsFrom 1 p.declaredCells) s₁ := by
    rw [hanswered.literals_eq, hl.listed.literalList_eq]
    rfl
  exact .bind hlist (hanswered.foldAll_untrapped step hl hfuel acc)

/-- Once a problem is compiled, none of the requests that exhaust it traps before it has
cleared the session, and so the session is empty behind each of them. -/
theorem enumeration_leaves_empty [Counted σ] (h : p.models s = .ok start s₁)
    (limit : Option Nat) :
    (p.enumerate limit : Run σ _).Untrapped s ∧ (p.count : Run σ _).Untrapped s ∧
    ∀ s₂ ∈ [(p.enumerate limit).leaves s, p.solveAll.leaves s, p.count.leaves s,
        (p.collect limit).leaves s],
      Session.variables s₂ = 0 ∧ Session.clauses s₂ = 0 := by
  have henumerate : ∀ limit, (p.enumerate limit : Run σ _).Untrapped s := by
    intro limit
    refine .thenClear (.bind h ?_)
    cases limit with
    | none => exact Models.foldSolutions_untrapped _ _ h
    | some limit =>
        obtain ⟨literals, hl, hanswered⟩ := Models.start_answered h
        exact hanswered.take_untrapped hl limit _
  have hcount : (p.count : Run σ _).Untrapped s :=
    .thenClear (.bind h (Models.foldSolutions_untrapped _ _ h))
  have hleft : ∀ limit, Session.variables ((p.enumerate limit).leaves s) = 0 ∧
      Session.clauses ((p.enumerate limit).leaves s) = 0 := fun limit =>
    Problem.thenClear_leavesEmpty _ s (henumerate limit)
  have hcollect : (p.collect limit).leaves s = (p.enumerate limit).leaves s :=
    Run.leaves_lift_bind _ _ s
  refine ⟨henumerate limit, hcount, ?_⟩
  simp only [List.forall_mem_cons]
  refine ⟨hleft limit, hleft none, Problem.thenClear_leavesEmpty _ s hcount, ?_, by simp⟩
  rw [hcollect]
  exact hleft limit

end

end TensorLogic
