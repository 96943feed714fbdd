import Mathlib.Data.List.Forall2
import TensorLogic.Fault

/-!
# Two requests that end alike

`Agree Q x y` says that two computations without state either both succeed, with
results related by `Q`, or both fail for the same reason. It is how one says that
an outcome depends on some of the arguments only: shapes and labels, say, and
not on how the cells behind them are stored.
-/

namespace TensorLogic

/-- What a sequence returns comes out of both of its steps. -/
theorem bind_eq_ok {ε α β : Type} {x : Except ε α} {k : α → Except ε β} {b : β} :
    x >>= k = .ok b ↔ ∃ a, x = .ok a ∧ k a = .ok b := by
  cases x with
  | error fault => simp [bind, Except.bind]
  | ok a => simp [bind, Except.bind]

theorem mapM_eq_ok {α β : Type} {f : α → Except Fault β} {as : List α} {bs : List β} :
    as.mapM f = .ok bs ↔ List.Forall₂ (fun a b => f a = .ok b) as bs := by
  induction as generalizing bs with
  | nil =>
      rw [List.mapM_nil, List.forall₂_nil_left_iff]
      exact ⟨fun h => by cases h; rfl, fun h => by rw [h]; rfl⟩
  | cons a as ih =>
      rw [List.mapM_cons, bind_eq_ok, List.forall₂_cons_left_iff]
      constructor
      · rintro ⟨b, hb, h⟩
        obtain ⟨rest, hrest, h⟩ := bind_eq_ok.mp h
        cases h
        exact ⟨b, rest, hb, ih.mp hrest, rfl⟩
      · rintro ⟨b, rest, hb, hrest, rfl⟩
        exact ⟨b, hb, bind_eq_ok.mpr ⟨rest, ih.mpr hrest, rfl⟩⟩

theorem forM_eq_ok {α : Type} {f : α → Except Fault Unit} {as : List α} :
    forM as f = .ok () ↔ ∀ a ∈ as, f a = .ok () := by
  induction as with
  | nil => exact iff_of_true rfl (by simp)
  | cons a as ih =>
      rw [List.forM_cons, bind_eq_ok, List.forall_mem_cons, ← ih]
      exact ⟨fun ⟨_, ha, hrest⟩ => ⟨ha, hrest⟩, fun ⟨ha, hrest⟩ => ⟨(), ha, hrest⟩⟩

theorem forM_eq_mapM {α : Type} (f : α → Except Fault Unit) (as : List α) :
    forM as f = as.mapM f >>= fun _ => .ok () := by
  induction as with
  | nil => rfl
  | cons a as ih =>
      rw [List.forM_cons, List.mapM_cons, ih, bind_assoc]
      refine congrArg (f a >>= ·) (funext fun _ => ?_)
      rw [bind_assoc]
      rfl

theorem mapM_ok_of_forall {α β : Type} {f : α → Except Fault β} {as : List α}
    (h : ∀ a ∈ as, ∃ b, f a = .ok b) : ∃ bs, as.mapM f = .ok bs := by
  induction as with
  | nil => exact ⟨[], rfl⟩
  | cons a as ih =>
      obtain ⟨b, hb⟩ := h a List.mem_cons_self
      obtain ⟨bs, hbs⟩ := ih fun c hc => h c (List.mem_cons_of_mem _ hc)
      rw [List.mapM_cons, hb]
      exact ⟨b :: bs, bind_eq_ok.mpr ⟨b, rfl, bind_eq_ok.mpr ⟨bs, hbs, rfl⟩⟩⟩

theorem exists_of_forall₂ {α β : Type} {R : α → β → Prop} {as : List α} {bs : List β}
    (h : List.Forall₂ R as bs) : (∀ a ∈ as, ∃ b ∈ bs, R a b) ∧ ∀ b ∈ bs, ∃ a ∈ as, R a b := by
  induction h with
  | nil => simp
  | cons hab _ ih =>
      refine ⟨List.forall_mem_cons.mpr ⟨⟨_, List.mem_cons_self, hab⟩, fun a ha => ?_⟩,
        List.forall_mem_cons.mpr ⟨⟨_, List.mem_cons_self, hab⟩, fun b hb => ?_⟩⟩
      · obtain ⟨b, hb, hab⟩ := ih.1 a ha
        exact ⟨b, List.mem_cons_of_mem _ hb, hab⟩
      · obtain ⟨a, ha, hab⟩ := ih.2 b hb
        exact ⟨a, List.mem_cons_of_mem _ ha, hab⟩

/-- Two relations between the same lists, at once. -/
theorem forall₂_both {α β : Type} {R S : α → β → Prop} {as : List α} {bs : List β}
    (hR : List.Forall₂ R as bs) (hS : List.Forall₂ S as bs) : ∀ a ∈ as, ∃ b, R a b ∧ S a b := by
  induction hR with
  | nil => simp
  | cons hab _ ih =>
      obtain _ | ⟨hab', hS⟩ := hS
      exact List.forall_mem_cons.mpr ⟨⟨_, hab, hab'⟩, ih hS⟩

theorem forall₂_trans {α β γ : Type} {R : α → β → Prop} {S : β → γ → Prop} {as : List α}
    {bs : List β} {cs : List γ} (h : List.Forall₂ R as bs) (h' : List.Forall₂ S bs cs) :
    List.Forall₂ (fun a c => ∃ b, R a b ∧ S b c) as cs := by
  induction h generalizing cs with
  | nil =>
      cases h'
      exact .nil
  | cons hab _ ih =>
      cases h' with
      | cons hbc hrest => exact .cons ⟨_, hab, hbc⟩ (ih hrest)

/-- Both succeed with related results, or both fail for one reason. -/
def Agree {α β : Type} (Q : α → β → Prop) : Except Fault α → Except Fault β → Prop
  | .ok a, .ok b => Q a b
  | .error f, .error g => f = g
  | _, _ => False

namespace Agree

variable {α β γ δ : Type}

theorem refl {Q : α → α → Prop} {x : Except Fault α} (hQ : ∀ a, Q a a) : Agree Q x x := by
  cases x with
  | ok a => exact hQ a
  | error f => exact rfl

theorem mono {Q R : α → β → Prop} {x : Except Fault α} {y : Except Fault β}
    (h : Agree Q x y) (hQR : ∀ a b, Q a b → R a b) : Agree R x y := by
  match x, y, h with
  | .ok a, .ok b, h => exact hQR a b h
  | .error f, .error g, h => exact h

theorem bind {Q : α → β → Prop} {R : γ → δ → Prop} {x : Except Fault α}
    {y : Except Fault β} {k : α → Except Fault γ} {l : β → Except Fault δ}
    (h : Agree Q x y) (hk : ∀ a b, Q a b → Agree R (k a) (l b)) :
    Agree R (x >>= k) (y >>= l) := by
  match x, y, h with
  | .ok a, .ok b, h => exact hk a b h
  | .error f, .error g, h => exact h

theorem bind_left {R : γ → δ → Prop} {x : Except Fault α} {k : α → Except Fault γ}
    {l : α → Except Fault δ} (hk : ∀ a, x = .ok a → Agree R (k a) (l a)) :
    Agree R (x >>= k) (x >>= l) := by
  cases x with
  | error f => exact rfl
  | ok a => exact hk a rfl

theorem mapM {P : α → β → Prop} {Q : γ → δ → Prop} {as : List α} {bs : List β}
    {f : α → Except Fault γ} {g : β → Except Fault δ} (h : List.Forall₂ P as bs)
    (hfg : ∀ a b, P a b → Agree Q (f a) (g b)) :
    Agree (List.Forall₂ Q) (as.mapM f) (bs.mapM g) := by
  induction h with
  | nil => exact .nil
  | cons hab _ ih =>
      rw [List.mapM_cons, List.mapM_cons]
      exact (hfg _ _ hab).bind fun c d hcd => ih.bind fun cs ds hcds => .cons hcd hcds

/-- What is related was returned. -/
theorem returned {Q : α → β → Prop} {x : Except Fault α} {y : Except Fault β}
    (h : Agree Q x y) : Agree (fun a b => x = .ok a ∧ Q a b) x y := by
  match x, y, h with
  | .ok _, .ok _, h => exact ⟨rfl, h⟩
  | .error _, .error _, h => exact h

theorem ok_right {Q : α → β → Prop} {x : Except Fault α} {y : Except Fault β} {a : α}
    (h : Agree Q x y) (hx : x = .ok a) : ∃ b, y = .ok b ∧ Q a b := by
  subst hx
  cases y with
  | error fault => exact h.elim
  | ok b => exact ⟨b, rfl, h⟩

end Agree

end TensorLogic
