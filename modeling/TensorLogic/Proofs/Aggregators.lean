import TensorLogic.Interpreter.Truth
import TensorLogic.Proofs.Link

/-!
# Aggregators from gates

An interpreter that gives the five gates gets the implication and four aggregators
for free, as scans over its gates. If the gates compute the truth functions, then so
do the scans, and they agree with what the interpreter of truth values computes in
its own way. The scan for "exactly one" carries the number of true values so far, as
far as the gates know it: whether it is at least one, and whether it is at least two.
-/

namespace TensorLogic

open Link

variable {σ τ α : Type}

/-- Whether the list is constant, told from its first element. -/
theorem neighboursAgree_cons (b : Bool) (bs : List Bool) :
    neighboursAgree (b :: bs) = bs.all (b == ·) := by
  induction bs generalizing b with
  | nil => rfl
  | cons c bs ih =>
      rw [neighboursAgree, ih, List.all_cons]
      cases b <;> cases c <;> rfl

theorem foldl_and (b : Bool) (bs : List Bool) :
    bs.foldl (· && ·) b = (b :: bs).all fun v => v := by
  induction bs generalizing b with
  | nil => simp
  | cons c bs ih => simp [ih, Bool.and_assoc]

theorem foldl_or (b : Bool) (bs : List Bool) :
    bs.foldl (· || ·) b = (b :: bs).any fun v => v := by
  induction bs generalizing b with
  | nil => simp
  | cons c bs ih => simp [ih, Bool.or_assoc]

theorem count_cons (b : Bool) (bs : List Bool) :
    (b :: bs).count true = b.toNat + bs.count true := by
  cases b with
  | false => simp
  | true => simp [Nat.add_comm]

/-- Each gate returns what stands for the truth value that it is about. -/
structure Gates.Sound (L : Link σ τ α Bool) (g : Gates σ α) : Prop where
  lift : ∀ {w} value, L.Follows w L.Same (g.lift value) (pure value)
  neg : ∀ {w a b}, L.Same w a b → L.Follows w L.Same (g.neg a) (pure !b)
  conj : ∀ {w a b c d}, L.Same w a b → L.Same w c d →
    L.Follows w L.Same (g.conj a c) (pure (b && d))
  disj : ∀ {w a b c d}, L.Same w a b → L.Same w c d →
    L.Follows w L.Same (g.disj a c) (pure (b || d))
  equ : ∀ {w a b c d}, L.Same w a b → L.Same w c d →
    L.Follows w L.Same (g.equ a c) (pure (b == d))

namespace Gates.Sound

variable {L : Link σ τ α Bool} {g : Gates σ α} (H : Sound L g) {w : σ × τ} {as : List α}
  {bs : List Bool}

theorem foldlM {op : α → α → Run σ α} {f : Bool → Bool → Bool}
    (hop : ∀ {w a b c d}, L.Same w a b → L.Same w c d →
      L.Follows w L.Same (op a c) (pure (f b d))) {a : α} {b : Bool}
    (hab : L.Same w a b) (h : List.Forall₂ (L.Same w) as bs) :
    L.Follows w L.Same (as.foldlM op a) (pure (bs.foldl f b)) := by
  induction as generalizing bs w a b with
  | nil =>
      cases h
      exact Follows.pure hab
  | cons c as ih =>
      obtain _ | ⟨hcd, hrest⟩ := h
      rw [List.foldlM_cons, List.foldl_cons]
      exact (hop hab hcd).bind_pure fun v e hv he =>
        ih he (persists_same.forall₂ hv hrest)

include H

theorem imp {a c : α} {b d : Bool} (hab : L.Same w a b) (hcd : L.Same w c d) :
    L.Follows w L.Same (g.imp a c) (pure (!b || d)) :=
  (H.neg hab).bind_pure fun _ _ hv hna => H.disj hna (L.same_later hv hcd)

theorem all (h : List.Forall₂ (L.Same w) as bs) :
    L.Follows w L.Same (g.all as) (pure (bs.all fun b => b)) := by
  cases h with
  | nil => exact H.lift true
  | cons hab hrest =>
      rw [← foldl_and]
      exact foldlM H.conj hab hrest

theorem any (h : List.Forall₂ (L.Same w) as bs) :
    L.Follows w L.Same (g.any as) (pure (bs.any fun b => b)) := by
  cases h with
  | nil => exact H.lift false
  | cons hab hrest =>
      rw [← foldl_or]
      exact foldlM H.disj hab hrest

/-- What a scan knows after `count` true values. -/
def Scanned (L : Link σ τ α Bool) (w : σ × τ) (seen : α × Option α) (count : Nat) : Prop :=
  L.Same w seen.1 (decide (1 ≤ count)) ∧
    match seen.2 with
    | some two => L.Same w two (decide (2 ≤ count))
    | none => count ≤ 1

omit H in
theorem Scanned.later {v w : σ × τ} {seen : α × Option α} {count : Nat}
    (h : Scanned L v seen count) (hw : L.Later v w) : Scanned L w seen count := by
  obtain ⟨one, two⟩ := seen
  refine ⟨L.same_later hw h.1, ?_⟩
  cases two with
  | none => exact h.2
  | some two => exact L.same_later hw h.2

omit H in
theorem two_le_add (count : Nat) (b : Bool) :
    (decide (2 ≤ count) || (decide (1 ≤ count) && b)) = decide (2 ≤ count + b.toNat) := by
  cases b with
  | false => simp
  | true =>
      simp
      omega

theorem scanOne {one : α} {two : Option α} {count : Nat}
    (hseen : Scanned L w (one, two) count) (h : List.Forall₂ (L.Same w) as bs) :
    L.Follows w (Scanned L) (g.scanOne one two as) (pure (count + bs.count true)) := by
  induction as generalizing bs w one two count with
  | nil =>
      cases h
      exact Follows.pure hseen
  | @cons a as ih =>
      obtain _ | @⟨_, b, _, bs, hab, hrest⟩ := h
      rw [count_cons, ← Nat.add_assoc, Gates.scanOne]
      refine (H.conj hseen.1 hab).bind_pure fun v both hv hboth => ?_
      have hseen := hseen.later hv
      -- what follows once the second value is known, whichever way it came about
      have hnext : ∀ v' two', L.Later v v' →
          L.Same v' two' (decide (2 ≤ count + b.toNat)) →
          L.Follows v' (Scanned L)
            (do
              let one ← g.disj one a
              g.scanOne one (some two') as)
            (pure (count + b.toNat + bs.count true)) := by
        intro v' two' hv' htwo
        have hlater := L.trans hv hv'
        have hone : (decide (1 ≤ count) || b) = decide (1 ≤ count + b.toNat) := by
          cases b <;> simp
        have hdisj := H.disj (L.same_later hv' hseen.1) (L.same_later hlater hab)
        rw [hone] at hdisj
        refine hdisj.bind_pure fun v'' one' hv'' hone' => ?_
        exact ih ⟨hone', L.same_later hv'' htwo⟩
          (persists_same.forall₂ (L.trans hlater hv'') hrest)
      cases two with
      | some two =>
          have hdisj := H.disj hseen.2 hboth
          rw [two_le_add] at hdisj
          exact hdisj.bind_pure hnext
      | none =>
          have hfew : decide (2 ≤ count) = false := decide_eq_false (by
            have : count ≤ 1 := hseen.2
            omega)
          have htwo := two_le_add count b
          rw [hfew, Bool.false_or] at htwo
          rw [htwo] at hboth
          exact (Follows.pure hboth).bind_pure hnext

theorem one (h : List.Forall₂ (L.Same w) as bs) :
    L.Follows w L.Same (g.one as) (pure (bs.count true == 1)) := by
  cases h with
  | nil => exact H.lift false
  | @cons a b as bs hab hrest =>
      have hseen : Scanned L w (a, none) b.toNat := by
        refine ⟨?_, Bool.toNat_le b⟩
        cases b <;> exact hab
      rw [count_cons]
      refine (H.scanOne hseen hrest).bind_pure fun v seen hv hscanned => ?_
      obtain ⟨seenOne, seenTwo⟩ := seen
      generalize b.toNat + bs.count true = count at hscanned ⊢
      cases seenTwo with
      | some two =>
          refine (H.neg hscanned.2).bind_pure fun v' notTwo hv' hnot => ?_
          have hexact : (decide (1 ≤ count) && !decide (2 ≤ count)) = (count == 1) := by
            grind
          rw [← hexact]
          exact H.conj (L.same_later hv' hscanned.1) hnot
      | none =>
          have hexact : decide (1 ≤ count) = (count == 1) := by
            have : count ≤ 1 := hscanned.2
            grind
          rw [← hexact]
          exact Follows.pure hscanned.1

theorem eqs {conjoin : List α → Run σ α}
    (hconjoin : ∀ {w as bs}, List.Forall₂ (L.Same w) as bs →
      L.Follows w L.Same (conjoin as) (pure (bs.all fun b => b)))
    (h : List.Forall₂ (L.Same w) as bs) :
    L.Follows w L.Same (g.eqs conjoin as) (pure (neighboursAgree bs)) := by
  cases h with
  | nil => exact H.lift true
  | @cons a b as bs hab hrest =>
      have hpairs : L.Follows w (fun v => List.Forall₂ (L.Same v)) (as.mapM (g.equ a))
          (pure (bs.map (b == ·))) := by
        rw [← List.mapM_pure]
        refine (Follows.mapM persists_same persists_same hrest
          fun v c d hv hcd => ?_).mono fun _ _ _ _ hboth => hboth.1
        exact H.equ (L.same_later hv hab) hcd
      rw [neighboursAgree_cons]
      refine hpairs.bind_pure fun v pairs hv h => ?_
      have hall := hconjoin h
      rwa [List.all_map] at hall

end Gates.Sound

end TensorLogic
