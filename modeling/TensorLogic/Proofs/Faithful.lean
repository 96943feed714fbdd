import TensorLogic.Proofs.Gates
import TensorLogic.Session.Recorded
import TensorLogic.Session.Standard

/-!
# Sessions that keep their formula

What a session holds is a working formula, and each request does to it what it says.
A session may run out of literals; a clause over variables that it handed out is
never refused. Nothing is asked of `solve` here. Both sessions of the library are of
this kind.
-/

namespace TensorLogic

/-- A session behind which stands a working formula. -/
class Faithful (σ : Type) [Session σ] where
  /-- The variables and clauses of the session. -/
  formula : σ → Cnf
  formula_clear : ∀ s : σ, formula (Session.clear s) = {}
  allocate_spec : ∀ s : σ,
    (∃ s', Session.allocate s = .ok (formula s).fresh s' ∧
      formula s' = (formula s).allocate) ∨
    ∃ n s', Session.allocate s = .error (.trapped (.literalRange n)) s'
  ensure_spec : ∀ (s : σ) (clause : Clause), clause.all (Cnf.owns (formula s).variables) →
    ∃ s', Session.ensure clause s = .ok () s' ∧ formula s' = (formula s).ensure clause

theorem StandardSession.allocate_eq (s : StandardSession) :
    StandardSession.allocate s =
      if s.formula.variables + 1 ≤ literalLimit then
        .ok s.formula.fresh { formula := s.formula.allocate }
      else
        .error (.trapped (.literalRange (s.formula.variables + 1)))
          { formula := s.formula.allocate } := by
  show (if s.formula.variables + 1 ≤ literalLimit then
      pure ((s.formula.variables + 1 : Nat) : Int)
    else trap (.literalRange (s.formula.variables + 1)) : Run StandardSession Literal)
      { formula := s.formula.allocate } = _
  split <;> rfl

theorem StandardSession.ensure_eq {s : StandardSession} {clause : Clause}
    (h : clause.all (Cnf.owns s.formula.variables)) :
    StandardSession.ensure clause s = .ok () { formula := s.formula.ensure clause } := by
  have hfind : (clause.find? fun literal => !Cnf.owns s.formula.variables literal) = none := by
    simpa using h
  have hget : ∀ k : StandardSession → Run StandardSession Unit, (get >>= k) s = k s s :=
    fun _ => rfl
  rw [StandardSession.ensure, hget]
  simp only [hfind]
  rfl

instance : Faithful StandardSession where
  formula s := s.formula
  formula_clear _ := rfl
  allocate_spec s := by
    have h := s.allocate_eq
    split at h
    · exact .inl ⟨_, h, rfl⟩
    · exact .inr ⟨_, _, h⟩
  ensure_spec _ _ h := ⟨_, StandardSession.ensure_eq h, rfl⟩

theorem RecordedSession.ensure_eq {s : RecordedSession} {clause : Clause}
    (h : clause.all (Cnf.owns s.formula.variables)) :
    RecordedSession.ensure clause s = .ok ()
      { s with formula := s.formula.ensure clause, calls := s.calls.push (.ensure clause) } := by
  show (if clause.all (Cnf.owns s.formula.variables) then (do
      RecordedSession.record (.ensure clause)
      modify fun s => { s with formula := s.formula.ensure clause })
    else trap .foreignLiteral : Run RecordedSession Unit) s = _
  rw [if_pos h]
  rfl

instance : Faithful RecordedSession where
  formula s := s.formula
  formula_clear _ := rfl
  allocate_spec _ := .inl ⟨_, rfl, rfl⟩
  ensure_spec _ _ h := ⟨_, RecordedSession.ensure_eq h, rfl⟩

end TensorLogic
