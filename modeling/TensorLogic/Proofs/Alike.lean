import TensorLogic.Proofs.Contraction
import TensorLogic.Proofs.Link
import TensorLogic.Proofs.View

/-!
# Tensor operations in lockstep

Two tensors are alike if they have one shape and related cells, however each is
stored. Every operation on tensors respects that: run on tensors that are alike
with cell functions that follow each other, it returns tensors that are alike, or
fails for one reason on both sides. The checks an operation makes depend on shapes
and labels only, and with storage in bounds so does everything its reads can fail
for.
-/

namespace TensorLogic

variable {α β γ δ σ τ A B C D : Type}

namespace Tensor

/-- One shape, storage in bounds, and related cells. -/
structure Alike (P : α → β → Prop) (t : Tensor α) (u : Tensor β) : Prop where
  shape_eq : t.shape = u.shape
  left : t.InBounds
  right : u.InBounds
  cells : ∀ index ∈ t.shape.indices, Agree P (t.get index) (u.get index)

namespace Alike

variable {P : α → β → Prop} {t : Tensor α} {u : Tensor β}

theorem mono {Q : α → β → Prop} (h : Alike P t u) (hPQ : ∀ a b, P a b → Q a b) :
    Alike Q t u :=
  ⟨h.shape_eq, h.left, h.right, fun index hindex => (h.cells index hindex).mono hPQ⟩

theorem get (h : Alike P t u) (index : Index) : Agree P (t.get index) (u.get index) := by
  by_cases hindex : index ∈ t.shape.indices
  · exact h.cells index hindex
  · rw [h.left.get_error hindex, h.right.get_error (h.shape_eq ▸ hindex), ← h.shape_eq]
    split <;> exact rfl

theorem toScalar (h : Alike P t u) : Agree P t.toScalar u.toScalar := by
  unfold Tensor.toScalar
  rw [Tensor.rank, Tensor.rank, ← h.shape_eq]
  split
  · exact h.get []
  · exact rfl

theorem blockCells (h : Alike P t u) (axes : Nat) (index : Index) :
    Agree (List.Forall₂ P) (t.blockCells axes index) (u.blockCells axes index) := by
  rw [Tensor.blockCells, Tensor.blockCells, innerShape, innerShape, Tensor.rank, Tensor.rank,
    ← h.shape_eq]
  refine Agree.mapM (P := Eq) (List.forall₂_same.mpr fun _ _ => rfl) fun i j hij => ?_
  rw [hij]
  exact h.get _

theorem reshape (h : Alike P t u) (target : Shape) {axes : List Axis}
    (honce : (Axis.sources axes).Nodup) :
    Agree (Alike P) (t.reshape target axes) (u.reshape target axes) := by
  have hboth := reshape_agree h.shape_eq target axes
  cases ht : t.reshape target axes <;> cases hu : u.reshape target axes <;>
    rw [ht, hu] at hboth
  case ok.ok r q =>
    obtain ⟨hr, hrb, hrget⟩ := reshape_spec h.left honce ht
    obtain ⟨hq, hqb, hqget⟩ := reshape_spec h.right honce hu
    refine ⟨hr.trans hq.symm, hrb, hqb, fun index hindex => ?_⟩
    rw [hr] at hindex
    rw [(hrget index hindex).2, (hqget index hindex).2, ← h.shape_eq]
    exact h.get _
  all_goals exact hboth

theorem slice (h : Alike P t u) {extent k : Nat} (hlast : t.shape.getLast? = some extent)
    (hk : k < extent) : Alike P (t.slice k) (u.slice k) := by
  obtain ⟨ht, htb, htget⟩ := slice_spec h.left hlast hk
  obtain ⟨hu, hub, huget⟩ := slice_spec h.right (h.shape_eq ▸ hlast) hk
  refine ⟨by rw [ht, hu, h.shape_eq], htb, hub, fun index hindex => ?_⟩
  rw [ht] at hindex
  rw [(htget index hindex).2, (huget index (h.shape_eq ▸ hindex)).2]
  exact h.get _

theorem unconcat (h : Alike P t u) :
    Agree (List.Forall₂ (Alike P)) t.unconcat u.unconcat := by
  rw [unconcat_eq h.left, unconcat_eq h.right, ← h.shape_eq]
  cases hlast : t.shape.getLast? with
  | none => exact rfl
  | some extent =>
      refine Agree.bind_left fun _ _ => ?_
      rw [Agree, List.forall₂_map_left_iff, List.forall₂_map_right_iff, List.forall₂_same]
      exact fun k hk => h.slice hlast (List.mem_range.mp hk)

theorem constant {a : α} {b : β} (h : P a b) (shape : Shape) :
    Alike P (Tensor.constant shape a) (Tensor.constant shape b) := by
  obtain ⟨ha, hgeta⟩ := constant_spec shape a
  obtain ⟨hb, hgetb⟩ := constant_spec shape b
  refine ⟨rfl, ha, hb, fun index hindex => ?_⟩
  rw [hgeta index hindex, hgetb index hindex]
  exact h

end Alike

/-- Laying out related cells depends on the shape alone. -/
theorem dense_agree {P : α → β → Prop} {shape : Shape} {as : Array α} {bs : Array β}
    (hsize : as.size = shape.cells) (h : List.Forall₂ P as.toList bs.toList) :
    Agree (Alike P) (dense shape as) (dense shape bs) := by
  have hsize' : bs.size = shape.cells := by simpa [hsize] using h.length_eq.symm
  refine Agree.bind_left fun n hplain => Agree.bind_left fun r hrow => ?_
  have hdense : ∀ {γ : Type} (cells : Array γ),
      dense shape cells = .ok { shape, strides := r.1, offset := 0, buffer := cells } := by
    intro γ cells
    rw [dense, hplain, hrow]
    rfl
  obtain ⟨-, hleft, hget⟩ := dense_spec (hdense as) hsize
  obtain ⟨-, hright, hget'⟩ := dense_spec (hdense bs) hsize'
  refine ⟨rfl, hleft, hright, fun index hindex => ?_⟩
  obtain ⟨k, hk, hindex⟩ := List.getElem_of_mem hindex
  rw [Shape.length_indices] at hk
  have hat : shape.indices[k]? = some index := by
    rw [← hindex]
    exact List.getElem?_eq_getElem (by rwa [Shape.length_indices])
  have hka : k < as.size := hsize ▸ hk
  have hkb : k < bs.size := hsize' ▸ hk
  rw [hget k hka index hat, hget' k hkb index hat]
  exact (List.forall₂_iff_get.mp h).2 k hka hkb

end Tensor

/-! ## Operations that fill a buffer -/

namespace Link

open Tensor

variable {L : Link σ τ α β} {w : σ × τ} {P : σ × τ → A → B → Prop}
  {Q : σ × τ → C → D → Prop}

theorem Persists.alike (hP : L.Persists P) : L.Persists fun w => Alike (P w) :=
  fun _ _ _ _ hlater h => h.mono fun _ _ hab => hP hlater hab

namespace Follows

theorem fill (hQ : L.Persists Q) {shape : Shape} {f : Index → Run σ C}
    {g : Index → Run τ D}
    (h : ∀ v, L.Later w v → ∀ index, L.Follows v Q (f index) (g index)) :
    L.Follows w (fun v => Alike (Q v)) (fill shape f) (fill shape g) := by
  rw [Tensor.fill, Tensor.fill, Shape.collect_eq, Shape.collect_eq, bind_map_left,
    bind_map_left]
  have hsame : List.Forall₂ (Eq (α := Index)) shape.indices shape.indices :=
    List.forall₂_same.mpr fun _ _ => rfl
  refine (Follows.mapM (P := fun _ => Eq) (fun _ _ _ _ _ hij => hij) hQ hsame
    fun v i j hv hij => ?_).bind fun v cs ds hv hcds => ?_
  · rw [hij]
    exact h v hv j
  · refine lift (dense_agree ?_ hcds.1)
    rw [List.size_toArray, hcds.2, Shape.length_indices]

/-- The offsets of a block take what they take on either side. -/
theorem block_bind [Cell A] [Cell B] (hwider : L.Wider A B) (cells : Nat) {k : Run σ C}
    {l : Run τ D} {R : σ × τ → C → D → Prop} (hk : L.Follows w R k l) :
    L.Follows w R (liftM (Size.block cells (Cell.width A)) >>= fun _ => k)
      (liftM (Size.block cells (Cell.width B)) >>= fun _ => l) := by
  rw [Size.block, Size.block, Run.lift_bind_assoc, Run.lift_bind_assoc]
  exact lift_bind _ fun _ _ => reserve_bind hwider cells hk

/-- A cell that goes into a growing buffer. -/
theorem grown [Cell C] [Cell D] (hwider : L.Wider C D) {shape : Shape} {index : Index}
    {f : Index → Run σ C} {g : Index → Run τ D}
    (h : L.Follows w Q (f index) (g index)) :
    L.Follows w Q (grown shape f index) (grown shape g index) :=
  h.bind fun _ _ _ _ hab => reserve_bind hwider _ (pure hab)

theorem map [Cell C] [Cell D] (hwider : L.Wider C D) (hP : L.Persists P) (hQ : L.Persists Q)
    {t : Tensor A} {u : Tensor B} (htu : Alike (P w) t u) {f : A → Run σ C}
    {g : B → Run τ D} (hfg : ∀ v a b, L.Later w v → P v a b → L.Follows v Q (f a) (g b)) :
    L.Follows w (fun v => Alike (Q v)) (t.map f) (u.map g) := by
  rw [map_eq, map_eq, ← htu.shape_eq]
  refine fill hQ fun v hv index => grown hwider ((lift ((hP.alike hv htu).get index)).bind ?_)
  exact fun u a b hu => hfg u a b (L.trans hv hu)

theorem map2 {E F : Type} [Cell E] [Cell F] (hwider : L.Wider E F)
    {R : σ × τ → E → F → Prop} (hP : L.Persists P) (hQ : L.Persists Q) (hR : L.Persists R)
    {t : Tensor A} {u : Tensor B} (htu : Alike (P w) t u) {t' : Tensor C} {u' : Tensor D}
    (htu' : Alike (Q w) t' u') {f : A → C → Run σ E} {g : B → D → Run τ F}
    (hfg : ∀ v a b c d, L.Later w v → P v a b → Q v c d →
      L.Follows v R (f a c) (g b d)) :
    L.Follows w (fun v => Alike (R v)) (Tensor.map2 t t' f) (Tensor.map2 u u' g) := by
  rw [map2_eq, map2_eq, ← htu.shape_eq, ← htu'.shape_eq]
  split
  · refine fill hR fun v hv index => grown hwider ((lift ((hP.alike hv htu).get index)).bind
      fun v' a b hv' hab => ?_)
    have hlater := L.trans hv hv'
    refine (lift ((hQ.alike hlater htu').get index)).bind fun v'' c d hv'' hcd => ?_
    exact hfg v'' a b c d (L.trans hlater hv'') (hP hv'' hab) hcd
  · exact throw _

theorem generate [Cell C] [Cell D] (hwider : L.Wider C D) (hQ : L.Persists Q)
    {shape : Shape} {f : Index → Run σ C} {g : Index → Run τ D}
    (h : ∀ v, L.Later w v → ∀ index, L.Follows v Q (f index) (g index)) :
    L.Follows w (fun v => Alike (Q v)) (generate shape f) (generate shape g) := by
  rw [generate_eq, generate_eq]
  split
  · exact throw _
  · exact reserve_bind hwider _ (fill hQ h)

theorem fold [Cell A] [Cell B] [Cell C] [Cell D] (hblock : L.Wider A B)
    (hwider : L.Wider C D) (hP : L.Persists P) (hQ : L.Persists Q) {t : Tensor A}
    {u : Tensor B} (htu : Alike (P w) t u) (axes : Nat) {f : List A → Run σ C}
    {g : List B → Run τ D} (hfg : ∀ v as bs, L.Later w v → List.Forall₂ (P v) as bs →
      L.Follows v Q (f as) (g bs)) :
    L.Follows w (fun v => Alike (Q v)) (t.fold axes f) (u.fold axes g) := by
  rw [fold_eq htu.left, fold_eq htu.right, Tensor.rank, Tensor.rank, outerShape, outerShape,
    innerShape, innerShape, Tensor.rank, Tensor.rank, ← htu.shape_eq]
  split
  · refine block_bind hblock _ (lift_bind _ fun _ _ =>
      reserve_bind hwider _ (fill hQ fun v hv index => ?_))
    have hblock := (hP.alike hv htu).blockCells axes index
    refine (lift (Q := fun v => List.Forall₂ (P v)) hblock).bind fun u as bs hu => ?_
    exact hfg u as bs (L.trans hv hu)
  · exact throw _

end Follows

/-! ## Stacks -/

/-- Computations that have no state of their own, with the excuses of another link. -/
def stateless (L : Link σ τ α β) (P : α → β → Prop) : Link Unit Unit α β where
  Valid _ := True
  Later _ _ := True
  Same _ := P
  Excused := L.Excused
  refl _ := trivial
  valid _ := trivial
  trans _ _ := trivial
  same_later _ h := h

/-- Computations without state that follow each other do so as requests of any run. -/
theorem Follows.value {P : α → β → Prop} {R : C → D → Prop} {x : Run Unit C}
    {y : Run Unit D} (h : (L.stateless P).Follows ((), ()) (fun _ => R) x y) :
    L.Follows w (fun _ => R) (liftM x.value) (liftM y.value) := by
  have h := h trivial
  unfold Run.value
  cases hx : x () <;> cases hy : y () <;> rw [hx, hy] at h
  case ok.ok => exact pure h.2
  case ok.error => exact h.elim
  all_goals exact fun _ => h

end Link

namespace Tensor

variable {P : α → β → Prop}

/-- The first part that satisfies a test stands at one place in both lists. -/
theorem find?_rel {R : A → B → Prop} {as : List A} {bs : List B}
    (h : List.Forall₂ R as bs) {p : A → Bool} {q : B → Bool}
    (hpq : ∀ a b, R a b → p a = q b) : Option.Rel R (as.find? p) (bs.find? q) := by
  induction h with
  | nil => exact .none
  | @cons a b _ _ hab _ ih =>
      rw [List.find?_cons, List.find?_cons, hpq a b hab]
      split
      · exact .some hab
      · exact ih

theorem stackCell_agree {ts : List (Tensor α)} {us : List (Tensor β)}
    (h : List.Forall₂ (Alike P) ts us) (index : Index) :
    Agree P (stackCell ts index) (stackCell us index) := by
  unfold stackCell
  cases index.getLast? with
  | none => exact rfl
  | some k =>
      by_cases hk : k < ts.length
      · have hk' : k < us.length := h.length_eq ▸ hk
        simpa [hk, hk'] using ((List.forall₂_iff_get.mp h).2 k hk hk').get index.dropLast
      · have hk' : ¬ k < us.length := h.length_eq ▸ hk
        simp [hk, hk', trap, throw, throwThe, MonadExceptOf.throw, Agree]

end Tensor

namespace Link

open Tensor

variable {L : Link σ τ α β} {w : σ × τ}

theorem Follows.stack [Cell A] [Cell B] (hwider : L.Wider A B)
    {P : σ × τ → A → B → Prop} (hP : L.Persists P) {ts : List (Tensor A)}
    {us : List (Tensor B)} (h : List.Forall₂ (Alike (P w)) ts us) :
    L.Follows w (fun v => Alike (P v)) (liftM (stack ts)) (liftM (stack us)) := by
  cases h with
  | nil => exact throw _
  | @cons t u ts us htu hrest =>
      have hall : List.Forall₂ (Alike (P w)) (t :: ts) (u :: us) := .cons htu hrest
      have hfind := find?_rel hall (p := fun part => part.shape ≠ t.shape)
        (q := fun part => part.shape ≠ u.shape) fun a b hab => by
          rw [hab.shape_eq, htu.shape_eq]
      rw [stack_cons_eq, stack_cons_eq, ← hall.length_eq, ← htu.shape_eq]
      rw [← htu.shape_eq] at hfind
      revert hfind
      generalize (t :: ts).find? _ = found
      generalize (u :: us).find? _ = found'
      intro hfind
      cases hfind with
      | some hab =>
          dsimp only
          rw [hab.shape_eq]
          exact throw _
      | none =>
          cases Size.checked (t.shape ++ [(t :: ts).length]) with
          | error f => exact throw f
          | ok n =>
              have hwider : (L.stateless fun _ _ => True).Wider A B := ⟨hwider.1, hwider.2⟩
              refine mono (Q := fun _ => Alike (P w)) ?_ fun _ _ _ hv => hP.alike hv
              refine value (generate hwider (fun _ _ _ _ _ hab => hab) fun v _ index => ?_)
              exact lift (stackCell_agree hall index)

/-! ## Joins and contractions -/

variable {P : σ × τ → A → B → Prop} {Q : σ × τ → C → D → Prop} {as : List (Labelled A)}
  {bs : List (Labelled B)}

/-- Operands with the same labels whose tensors are alike. -/
def AlikeOperands (P : A → B → Prop) (a : Labelled A) (b : Labelled B) : Prop :=
  a.labels = b.labels ∧ Alike P a.tensor b.tensor

theorem readAll_agree {R : A → B → Prop} (h : List.Forall₂ (AlikeOperands R) as bs)
    (output : String) (index : Index) :
    Agree (List.Forall₂ R) (Join.readAll output as index) (Join.readAll output bs index) := by
  have hlayout : List.Forall₂ Join.SameLayout as bs :=
    h.imp fun _ _ hab => ⟨hab.1, hab.2.shape_eq⟩
  rw [Join.readAll, Join.readAll, Join.jointLabels_congr hlayout]
  refine Agree.mapM h fun a b hab => ?_
  rw [Labelled.read, Labelled.read, Labelled.letters, Labelled.letters, hab.1]
  exact hab.2.get _

theorem Follows.join [Cell C] [Cell D] (hwider : L.Wider C D) (hP : L.Persists P)
    (hQ : L.Persists Q) (h : List.Forall₂ (AlikeOperands (P w)) as bs) (output : String)
    {f : List A → Run σ C} {g : List B → Run τ D}
    (hfg : ∀ v cs ds, L.Later w v → List.Forall₂ (P v) cs ds → L.Follows v Q (f cs) (g ds)) :
    L.Follows w (fun v j k => Alike (Q v) j.tensor k.tensor ∧ j.folded = k.folded)
      (join output as f) (join output bs g) := by
  rw [Join.join_eq, Join.join_eq,
    Join.jointAxes_congr (h.imp fun _ _ hab => ⟨hab.1, hab.2.shape_eq⟩)]
  refine lift_bind _ fun axes _ => lift_bind _ fun _ _ => (generate hwider hQ ?_).bind ?_
  · intro v hv index
    have hoperands : List.Forall₂ (AlikeOperands (P v)) as bs :=
      h.imp fun _ _ hab => ⟨hab.1, hP.alike hv hab.2⟩
    refine (lift (Q := fun v => List.Forall₂ (P v))
      (readAll_agree hoperands output index)).bind fun u cs ds hu => ?_
    exact hfg u cs ds (L.trans hv hu)
  · exact fun v t u _ htu => pure ⟨htu, rfl⟩

theorem Follows.reduce [Cell C] [Cell D] (hwider : L.Wider C D) (hP : L.Persists P)
    (hQ : L.Persists Q) (h : List.Forall₂ (AlikeOperands (P w)) as bs) (output : String)
    {f : List A → Run σ C} {g : List B → Run τ D}
    (hfg : ∀ v cs ds, L.Later w v → List.Forall₂ (P v) cs ds → L.Follows v Q (f cs) (g ds))
    {f' : List C → Run σ C} {g' : List D → Run τ D}
    (hfg' : ∀ v cs ds, L.Later w v → List.Forall₂ (Q v) cs ds →
      L.Follows v Q (f' cs) (g' ds)) :
    L.Follows w (fun v => Alike (Q v)) (reduce output as f f') (reduce output bs g g') := by
  refine (join hwider hP hQ h output hfg).bind fun v j k hv hjk => ?_
  rw [hjk.2]
  exact fold hwider hwider hQ hQ hjk.1 _ fun u cs ds hu => hfg' u cs ds (L.trans hv hu)

end Link

end TensorLogic
