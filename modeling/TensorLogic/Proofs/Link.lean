import TensorLogic.Proofs.Agreement
import TensorLogic.Size

/-!
# Computations in lockstep

A formula runs under any interpreter, so what two interpreters have to do with
each other is a relation between two runs of the same steps. A `Link` says which
values stand for the same thing; since that may depend on what a session holds by
now, it is said for a pair of states, and links come with the order in which
those pairs evolve and along which the relation persists.

`Follows` compares two computations from one such pair: they return related
results in a later pair of states, or they fail for one reason. The left side may
besides fail by itself for an excused reason, a session that runs out of literals
say. What follows are the rules by which runs are put together: sequence, traversal
of a list, and requests that have no state.

Buffers are the one place where it shows what the values are made of. If those on the
left take more bytes, a buffer may be too large there and not on the right; that has
to be excused (`Wider`).
-/

namespace TensorLogic

/-- A buffer of so many cells can be had at the one width and not at the other. -/
def Size.Between (narrow wide entries : Nat) : Prop :=
  entries * narrow < Nat.pow 2 63 ∧ Nat.pow 2 63 ≤ entries * wide

/-- There is no buffer for as many cells at the one width, and there is at the other. -/
def Size.Lacks (narrow wide : Nat) (fault : Fault) : Prop :=
  ∃ entries, Between narrow wide entries ∧ fault = .trapped (.capacity entries)

/-- How the values of two interpreters belong together, as their states evolve. -/
structure Link (σ τ α β : Type) where
  /-- The pairs of states that can come up at all. -/
  Valid : σ × τ → Prop
  /-- The pairs of states that come after a pair of states. -/
  Later : σ × τ → σ × τ → Prop
  /-- Values that stand for the same thing. -/
  Same : σ × τ → α → β → Prop
  /-- Faults that the left side alone may have. -/
  Excused : Fault → Prop
  refl : ∀ {w}, Valid w → Later w w
  valid : ∀ {v w}, Later v w → Valid w
  trans : ∀ {u v w}, Later u v → Later v w → Later u w
  same_later : ∀ {v w a b}, Later v w → Same v a b → Same w a b

namespace Link

variable {σ τ α β A B C D : Type} (L : Link σ τ α β)

/-- A relation that holds on once it holds. -/
def Persists (Q : σ × τ → A → B → Prop) : Prop :=
  ∀ ⦃v w a b⦄, L.Later v w → Q v a b → Q w a b

/-- Two ends of a computation: results related by `Q`, or failures for one reason. -/
def Ends (w : σ × τ) (Q : σ × τ → A → B → Prop) :
    EStateM.Result Fault σ A → EStateM.Result Fault τ B → Prop
  | .ok a s, .ok b t => L.Later w (s, t) ∧ Q (s, t) a b
  | .error f _, .error g _ => f = g ∨ L.Excused f
  | .error f _, .ok _ _ => L.Excused f
  | .ok _ _, .error _ _ => False

/-- The two computations end alike. -/
def Follows (w : σ × τ) (Q : σ × τ → A → B → Prop) (x : Run σ A) (y : Run τ B) : Prop :=
  L.Valid w → L.Ends w Q (x w.1) (y w.2)

/-- Cells of `A` on the left take no less room than cells of `B` on the right. If a buffer
of them cannot be had where the same number of the others could, that is excused. -/
structure Wider (A B : Type) [Cell A] [Cell B] : Prop where
  width_le : Cell.width B ≤ Cell.width A
  excused : ∀ entries, Size.Between (Cell.width B) (Cell.width A) entries →
    L.Excused (.trapped (.capacity entries))

variable {L}

/-- Cells of one width need no excuse. -/
theorem Wider.of_eq [Cell A] [Cell B] (h : Cell.width A = Cell.width B) : L.Wider A B where
  width_le := Nat.le_of_eq h.symm
  excused entries hbetween := by
    rw [h] at hbetween
    exact absurd hbetween.2 (Nat.not_le.mpr hbetween.1)

/-- The link under which the left side may fail for these reasons as well. -/
def excusing (L : Link σ τ α β) (extra : Fault → Prop) : Link σ τ α β :=
  { L with Excused := fun fault => L.Excused fault ∨ extra fault }

theorem persists_same : L.Persists L.Same :=
  fun _ _ _ _ => L.same_later

theorem Persists.forall₂ {Q : σ × τ → A → B → Prop} (hQ : L.Persists Q) :
    L.Persists fun w => List.Forall₂ (Q w) :=
  fun _ _ _ _ hlater h => h.imp fun _ _ hab => hQ hlater hab

namespace Follows

variable {w : σ × τ} {Q : σ × τ → A → B → Prop} {R : σ × τ → C → D → Prop}

theorem of_valid {x : Run σ A} {y : Run τ B} (h : L.Valid w → L.Follows w Q x y) :
    L.Follows w Q x y :=
  fun hw => h hw hw

theorem mono {Q' : σ × τ → A → B → Prop} {x : Run σ A} {y : Run τ B}
    (h : L.Follows w Q x y) (hQ : ∀ v a b, L.Later w v → Q v a b → Q' v a b) :
    L.Follows w Q' x y := by
  intro hw
  have h := h hw
  cases hx : x w.1 <;> cases hy : y w.2 <;> rw [hx, hy] at h
  case ok.ok => exact ⟨h.1, hQ _ _ _ h.1 h.2⟩
  all_goals exact h

theorem excusing {x : Run σ A} {y : Run τ B} (h : L.Follows w Q x y) (extra : Fault → Prop) :
    (L.excusing extra).Follows w Q x y := by
  intro hw
  have h := h hw
  cases hx : x w.1 <;> cases hy : y w.2 <;> rw [hx, hy] at h
  case ok.ok | ok.error => exact h
  case error.ok => exact .inl h
  case error.error => exact h.imp_right .inl

theorem pure {a : A} {b : B} (h : Q w a b) : L.Follows w Q (pure a) (pure b) :=
  fun hw => ⟨L.refl hw, h⟩

theorem bind {x : Run σ A} {y : Run τ B} {k : A → Run σ C} {l : B → Run τ D}
    (h : L.Follows w Q x y)
    (hk : ∀ v a b, L.Later w v → Q v a b → L.Follows v R (k a) (l b)) :
    L.Follows w R (x >>= k) (y >>= l) := by
  intro hw
  have h := h hw
  simp only [Bind.bind, EStateM.bind]
  cases hx : x w.1 <;> cases hy : y w.2 <;> rw [hx, hy] at h
  case ok.ok a s b t =>
    have hnext := hk (s, t) a b h.1 h.2 (L.valid h.1)
    show L.Ends w R (k a s) (l b t)
    cases hka : k a s <;> cases hlb : l b t <;> rw [hka, hlb] at hnext
    case ok.ok => exact ⟨L.trans h.1 hnext.1, hnext.2⟩
    all_goals exact hnext
  case ok.error => exact h.elim
  case error.ok f s b t =>
    show L.Ends w R (.error f s) (l b t)
    cases l b t
    · exact h
    · exact .inr h
  case error.error => exact h

theorem lift {x : Except Fault A} {y : Except Fault B} (h : Agree (Q w) x y) :
    L.Follows w Q (liftM x) (liftM y) := by
  match x, y, h with
  | .ok a, .ok b, h => exact pure h
  | .error f, .error g, h => exact fun _ => .inl h

/-- One request on both sides leaves the states as they are. -/
theorem lift_bind (x : Except Fault A) {k : A → Run σ C} {l : A → Run τ D}
    (hk : ∀ a, x = .ok a → L.Follows w R (k a) (l a)) :
    L.Follows w R (liftM x >>= k) (liftM x >>= l) := by
  cases x with
  | ok a => exact hk a rfl
  | error f => exact fun _ => .inl rfl

theorem throw (f : Fault) : L.Follows w Q (throw f) (throw f) :=
  fun _ => .inl rfl

/-- A request for a buffer, with what follows once both sides have theirs. -/
theorem reserve_bind [Cell A] [Cell B] (hwider : L.Wider A B) (entries : Nat) {k : Run σ C}
    {l : Run τ D} (hk : L.Follows w R k l) :
    L.Follows w R (liftM (Size.reserve entries (Cell.width A)) >>= fun _ => k)
      (liftM (Size.reserve entries (Cell.width B)) >>= fun _ => l) := by
  by_cases hA : entries * Cell.width A < Nat.pow 2 63
  · have hB : entries * Cell.width B < Nat.pow 2 63 :=
      Nat.lt_of_le_of_lt (Nat.mul_le_mul_left _ hwider.width_le) hA
    rw [Size.reserve, Size.reserve, if_pos hA, if_pos hB]
    exact hk
  by_cases hB : entries * Cell.width B < Nat.pow 2 63
  · have hexcused := hwider.excused entries ⟨hB, Nat.le_of_not_lt hA⟩
    rw [Size.reserve, Size.reserve, if_neg hA, if_pos hB]
    intro _
    show L.Ends w R (.error (.trapped (.capacity entries)) w.1) (l w.2)
    cases l w.2
    · exact hexcused
    · exact .inr hexcused
  · rw [Size.reserve, Size.reserve, if_neg hA, if_neg hB]
    exact fun _ => .inl rfl

/-- Steps of the left side that the right side has no counterpart for. -/
theorem bind_pure {x : Run σ A} {b : B} {k : A → Run σ C} {y : Run τ D}
    (h : L.Follows w Q x (Pure.pure b))
    (hk : ∀ v a, L.Later w v → Q v a b → L.Follows v R (k a) y) :
    L.Follows w R (x >>= k) y := by
  have hb : L.Follows w (fun v a b' => Q v a b ∧ b' = b) x (Pure.pure b) := by
    intro hw
    have h := h hw
    cases hx : x w.1 <;> rw [hx] at h
    · exact ⟨h.1, h.2, rfl⟩
    · exact h
  rw [← pure_bind b fun _ => y]
  exact hb.bind fun v a _ hv hab => hk v a hv hab.1

theorem mapM {P : σ × τ → A → B → Prop} {Q : σ × τ → C → D → Prop} (hP : L.Persists P)
    (hQ : L.Persists Q) {f : A → Run σ C} {g : B → Run τ D} {as : List A} {bs : List B}
    (h : List.Forall₂ (P w) as bs)
    (hfg : ∀ v a b, L.Later w v → P v a b → L.Follows v Q (f a) (g b)) :
    L.Follows w (fun v cs ds => List.Forall₂ (Q v) cs ds ∧ cs.length = as.length)
      (as.mapM f) (bs.mapM g) := by
  induction as generalizing bs w with
  | nil =>
      cases h
      exact Follows.pure ⟨.nil, rfl⟩
  | cons a as ih =>
      obtain _ | ⟨hab, hrest⟩ := h
      rw [List.mapM_cons, List.mapM_cons]
      refine of_valid fun hw => (hfg w a _ (L.refl hw) hab).bind fun v c d hv hcd => ?_
      refine (ih (hP.forall₂ hv hrest) fun u a b hu => hfg u a b (L.trans hv hu)).bind
        fun u cs ds hu hcds => ?_
      exact Follows.pure ⟨.cons (hQ hu hcd) hcds.1, by simp [hcds.2]⟩

end Follows

end Link

end TensorLogic
