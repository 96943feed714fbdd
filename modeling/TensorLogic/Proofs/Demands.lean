import TensorLogic.Proofs.Constructible
import TensorLogic.Proofs.Truths

/-!
# The memory that a computation asks for

Where the labels fit, the operands can be read and the functions on cells are total,
nothing can stop a contraction but its sizes. It asks for a buffer for the joint index
space, for those of the block that it folds, and for one for what is left, and it ends
where asking for these ends (`reduce_demands`): by the same refusal if the cells of one
cannot be counted, by the same trap if they can and there is still no buffer for them. What
is computed cell by cell from tensors of one shape asks for a buffer that grows
(`map2_demands`).

`Demands Q x requests` says this of any computation on truth values, with its requests in
the order in which they are made. Sequences append their requests. From the list alone it
can be read off whether the computation traps: the first request that is not met decides
(`Demands.traps_iff`).
-/

namespace TensorLogic

variable {α β : Type}

/-! ## Requests for memory -/

theorem Size.checked_of_plain {shape : Shape} {n : Nat} (h : plain shape = .ok n) :
    checked shape = .ok n := by
  rw [plain] at h
  rw [checked]
  split at h
  next => cases h; rfl
  next => cases h

/-- What is asked for to hold the truth values of a tensor. -/
inductive Request where
  /-- A buffer for all cells of the shape. -/
  | whole (shape : Shape)
  /-- A buffer that grows by the cells of the shape, one after the other. -/
  | growing (shape : Shape)
  /-- The offsets and the cells of a block that is folded. -/
  | block (shape : Shape)

namespace Request

/-- Asks for the memory and lays out the cells. Only a buffer that is asked for as a whole
has its cells counted before, and is refused if they are too many. -/
def ask : Request → Except Fault Unit
  | whole shape => do
      let size ← Size.checked shape
      Size.reserve size (Cell.width Bool)
      let _ ← Size.rowMajor shape
      .ok ()
  | growing shape => do
      Size.growing shape.cells (Cell.width Bool)
      let _ ← Size.plain shape
      let _ ← Size.rowMajor shape
      .ok ()
  | block shape => Size.block shape.cells (Cell.width Bool)

/-- The memory is there. -/
def Met : Request → Prop
  | whole shape => shape.Fillable Bool
  | growing shape => shape.Growable Bool
  | block shape => shape.Blockable Bool

/-- Nothing refuses the request. -/
def Counted : Request → Prop
  | whole shape => ∃ n, Size.checked shape = .ok n
  | growing _ | block _ => True

theorem ask_eq_ok_iff {request : Request} : request.ask = .ok () ↔ request.Met := by
  cases request with
  | whole shape =>
      constructor
      · intro h
        obtain ⟨size, hchecked, h⟩ := bind_eq_ok.mp h
        obtain ⟨_, hreserve, h⟩ := bind_eq_ok.mp h
        obtain ⟨⟨strides, whole⟩, hrow, -⟩ := bind_eq_ok.mp h
        obtain ⟨rfl, -, hplain⟩ := Size.checked_ok hchecked
        obtain ⟨-, rfl, -⟩ := Tensor.rowMajor_reach hrow
        exact ⟨⟨strides, hplain, hrow⟩, hreserve⟩
      · intro h
        obtain ⟨strides, -, hrow⟩ := h.storable
        exact bind_eq_ok.mpr ⟨_, h.storable.checked, bind_eq_ok.mpr ⟨(), h.reserved,
          bind_eq_ok.mpr ⟨_, hrow, rfl⟩⟩⟩
  | growing shape =>
      constructor
      · intro h
        obtain ⟨_, hgrowth, h⟩ := bind_eq_ok.mp h
        obtain ⟨size, hplain, h⟩ := bind_eq_ok.mp h
        obtain ⟨⟨strides, whole⟩, hrow, -⟩ := bind_eq_ok.mp h
        obtain ⟨rfl, -⟩ := Size.plain_ok hplain
        obtain ⟨-, rfl, -⟩ := Tensor.rowMajor_reach hrow
        exact ⟨⟨strides, hplain, hrow⟩, Size.growing_ok_iff.mp hgrowth⟩
      · intro h
        obtain ⟨strides, hplain, hrow⟩ := h.storable
        exact bind_eq_ok.mpr ⟨(), Size.growing_ok_iff.mpr h.grows, bind_eq_ok.mpr ⟨_, hplain,
          bind_eq_ok.mpr ⟨_, hrow, rfl⟩⟩⟩
  | block shape => exact Shape.block_eq_ok_iff

theorem ask_of_refused {shape : Shape} {fault : Fault} (h : Size.checked shape = .error fault) :
    (whole shape).ask = .error fault := by
  rw [ask, h]
  rfl

theorem refused_of_not_counted {request : Request} (h : ¬ request.Counted) :
    ∃ cause, request.ask = .error (.refused cause) := by
  cases request with
  | growing shape | block shape => exact absurd trivial h
  | whole shape =>
      cases hchecked : Size.checked shape with
      | ok n => exact absurd ⟨n, hchecked⟩ h
      | error fault =>
          obtain ⟨cause, rfl⟩ : fault.IsRefusal :=
            Size.checked_failsBy (P := Fault.IsRefusal) ⟨_, rfl⟩ fault hchecked
          exact ⟨cause, ask_of_refused hchecked⟩

end Request

/-- Blocks of as many cells are one request. -/
theorem Request.block_ask_congr {shape shape' : Shape} (hcells : shape.cells = shape'.cells) :
    (block shape).ask = (block shape').ask :=
  congrArg (Size.block · (Cell.width Bool)) hcells

/-- Where the cells can be laid out, only the memory for them can be missing. -/
theorem Shape.Storable.ask_failsBy {shape : Shape} (h : shape.Storable) :
    FailsBy (fun fault => ∃ n, fault = .trapped (.capacity n)) (Request.whole shape).ask := by
  have ⟨strides, _, hrow⟩ := h
  refine FailsBy.bind (.of_ok h.checked) fun _ _ => ?_
  exact FailsBy.bind (Size.reserve_failsBy ⟨_, rfl⟩) fun _ _ => FailsBy.bind (.of_ok hrow)
    fun _ _ => .of_ok rfl

/-- Stopped by a broken promise, and not by a refusal. -/
def Traps (x : Except Fault α) : Prop :=
  ∃ cause, x = .error (.trapped cause)

/-- Whatever stops a request that is not refused is a trap. -/
theorem Request.traps_of_counted {request : Request} (hcounted : request.Counted)
    (h : ¬ request.Met) : Traps request.ask := by
  have hfails : FailsBy (fun fault => ∃ cause, fault = .trapped cause) request.ask := by
    cases request with
    | whole shape =>
        obtain ⟨n, hn⟩ := hcounted
        refine FailsBy.bind (.of_ok hn) fun _ _ => ?_
        refine FailsBy.bind (Size.reserve_failsBy ⟨_, rfl⟩) fun _ _ => ?_
        exact FailsBy.bind (Size.rowMajor_failsBy ⟨_, rfl⟩ _) fun _ _ => .of_ok rfl
    | growing shape =>
        refine FailsBy.bind (Size.growing_failsBy fun _ => ⟨_, rfl⟩) fun _ _ => ?_
        refine FailsBy.bind (Size.plain_failsBy ⟨_, rfl⟩ _) fun _ _ => ?_
        exact FailsBy.bind (Size.rowMajor_failsBy ⟨_, rfl⟩ _) fun _ _ => .of_ok rfl
    | block shape => exact Size.block_failsBy fun _ => ⟨_, rfl⟩
  cases hask : request.ask with
  | ok _ => exact absurd (ask_eq_ok_iff.mp hask) h
  | error fault =>
      obtain ⟨cause, rfl⟩ := hfails fault hask
      exact ⟨cause, rfl⟩

/-- Shapes that can be stored and have as many cells are one request. -/
theorem Shape.Storable.ask_eq {shape shape' : Shape} (h : shape.Storable) (h' : shape'.Storable)
    (hcells : shape.cells = shape'.cells) :
    (Request.whole shape).ask = (Request.whole shape').ask := by
  have ⟨strides, _, hrow⟩ := h
  have ⟨strides', _, hrow'⟩ := h'
  rw [Request.ask, Request.ask, h.checked, h'.checked, hrow, hrow', hcells]
  rfl

instance : (request : Request) → Decidable request.Met
  | .whole shape => inferInstanceAs (Decidable (shape.Fillable Bool))
  | .growing shape => inferInstanceAs (Decidable (shape.Growable Bool))
  | .block shape => inferInstanceAs (Decidable (shape.Blockable Bool))

instance : (request : Request) → Decidable request.Counted
  | .whole shape =>
      match h : Size.checked shape with
      | .ok n => isTrue ⟨n, h⟩
      | .error _ => isFalse fun ⟨_, hok⟩ => by
          rw [h] at hok
          cases hok
  | .growing _ | .block _ => isTrue trivial

namespace Run

theorem value_mapM (f : α → Run Unit β) (l : List α) :
    (l.mapM f).value = l.mapM fun a => (f a).value := by
  induction l with
  | nil => rfl
  | cons a l ih =>
      rw [List.mapM_cons, List.mapM_cons, value_bind]
      refine congrArg ((f a).value >>= ·) (funext fun b => ?_)
      rw [value_bind, ih]
      rfl

variable {x : Run Unit α} {y : Except Fault α} {k : α → Run Unit β} {fault : Fault}

theorem value_of_checked {a : α} (h : y = .ok a) : (liftM y >>= k).value = (k a).value := by
  rw [h]
  rfl

theorem value_of_refused (h : y = .error fault) : (liftM y >>= k).value = .error fault := by
  rw [h]
  rfl

theorem value_of_failed (h : x = throw fault) : (x >>= k).value = .error fault := by
  rw [h]
  rfl

end Run

theorem not_traps_ok {x : Except Fault α} {a : α} (h : x = .ok a) : ¬ Traps x := by
  rintro ⟨cause, hx⟩
  rw [h] at hx
  cases hx

theorem not_traps_refused {x : Except Fault α} (cause : Error)
    (h : x = .error (.refused cause)) : ¬ Traps x := by
  rintro ⟨cause', hx⟩
  rw [h] at hx
  cases hx

theorem not_traps_iff {x : Except Fault α} : ¬ Traps x ↔ FailsBy Fault.IsRefusal x := by
  constructor
  · intro h fault hfault
    cases fault with
    | refused cause => exact ⟨cause, rfl⟩
    | trapped cause => exact absurd ⟨cause, hfault⟩ h
  · rintro h ⟨cause, hcause⟩
    obtain ⟨_, hrefused⟩ := h _ hcause
    cases hrefused

theorem traps_mapM_cons {f : α → Except Fault β} {a : α} {l : List α} (h : Traps (f a)) :
    Traps ((a :: l).mapM f) := by
  obtain ⟨cause, hcause⟩ := h
  refine ⟨cause, ?_⟩
  rw [List.mapM_cons, hcause]
  rfl

/-- Of the requests made one after the other, the first that cannot be met is one that nothing
refuses. -/
inductive Overdraws : List Request → Prop where
  | here {request : Request} {rest : List Request} :
      request.Counted → ¬ request.Met → Overdraws (request :: rest)
  | later {request : Request} {rest : List Request} :
      request.Met → Overdraws rest → Overdraws (request :: rest)

theorem not_overdraws_nil : ¬ Overdraws [] := by
  intro h
  cases h

theorem overdraws_cons_iff {request : Request} {rest : List Request} :
    Overdraws (request :: rest) ↔ if request.Met then Overdraws rest else request.Counted := by
  split
  next hmet =>
      refine ⟨fun h => ?_, .later hmet⟩
      cases h with
      | here _ hnot => exact absurd hmet hnot
      | later _ hrest => exact hrest
  next hmet =>
      constructor
      · intro h
        cases h with
        | here hcounted _ => exact hcounted
        | later h _ => exact absurd h hmet
      · intro hcounted
        exact .here hcounted hmet

instance decidableOverdraws : (requests : List Request) → Decidable (Overdraws requests)
  | [] => isFalse not_overdraws_nil
  | _ :: rest =>
      have := decidableOverdraws rest
      decidable_of_iff _ overdraws_cons_iff.symm

/-- The computation ends where making these requests ends, with a result that satisfies `Q`
if all of them are met. -/
def Demands (Q : α → Prop) (x : Except Fault α) (requests : List Request) : Prop :=
  Agree (fun a _ => Q a) x (forM requests Request.ask)

namespace Demands

variable {Q : α → Prop} {R : β → Prop} {x : Except Fault α} {requests requests' : List Request}

theorem of_ok {a : α} (hx : x = .ok a) (ha : Q a) : Demands Q x [] := by
  rw [hx]
  exact ha

theorem bind {k : α → Except Fault β} (hx : Demands Q x requests)
    (hk : ∀ a, Q a → Demands R (k a) requests') : Demands R (x >>= k) (requests ++ requests') := by
  rw [Demands, List.forM_append]
  exact Agree.bind hx fun a _ ha => hk a ha

theorem run_bind {x : Run Unit α} {k : α → Run Unit β} (hx : Demands Q x.value requests)
    (hk : ∀ a, Q a → Demands R (k a).value requests') :
    Demands R (x >>= k).value (requests ++ requests') := by
  rw [Run.value_bind]
  exact hx.bind hk

/-- A request that is met without a buffer, in front of what it leads to. -/
theorem checked {y : Except Fault α} {a : α} {k : α → Run Unit β} (hy : y = .ok a)
    (hk : Demands R (k a).value requests) : Demands R (liftM y >>= k).value requests := by
  rw [hy]
  exact hk

/-- What asks for no further buffer. -/
theorem run_bind_ok {x : Run Unit α} {k : α → Run Unit β} (hx : Demands Q x.value requests)
    (hk : ∀ a, Q a → ∃ b, (k a).value = .ok b ∧ R b) : Demands R (x >>= k).value requests := by
  rw [← List.append_nil requests]
  refine hx.run_bind fun a ha => ?_
  obtain ⟨b, hb, hR⟩ := hk a ha
  exact of_ok hb hR

theorem single {request : Request} (h : Agree (fun a _ => Q a) x request.ask) :
    Demands Q x [request] := by
  rw [Demands, List.forM_cons, ← bind_pure x]
  exact Agree.bind h fun a _ ha => ha

/-- Two computations that end as asking for their buffers ends, where that makes no
difference. -/
theorem agree {y : Except Fault β} {S : α → β → Prop} (hx : Demands Q x requests)
    (hy : Demands R y requests') (h : forM requests Request.ask = forM requests' Request.ask)
    (hok : ∀ a b, x = .ok a → y = .ok b → Q a → R b → S a b) : Agree S x y := by
  rw [Demands] at hx hy
  rw [← h] at hy
  generalize forM requests Request.ask = buffers at hx hy
  cases buffers with
  | ok _ =>
      cases x with
      | error _ => exact hx.elim
      | ok a =>
          cases y with
          | error _ => exact hy.elim
          | ok b => exact hok a b rfl rfl hx hy
  | error fault =>
      cases x with
      | ok _ => exact hx.elim
      | error f =>
          cases y with
          | ok _ => exact hy.elim
          | error g =>
              have hf : f = fault := hx
              have hg : g = fault := hy
              exact hf.trans hg.symm

theorem traps_iff (h : Demands Q x requests) : Traps x ↔ Overdraws requests := by
  have hasked : Traps x ↔ Traps (forM requests Request.ask) := by
    rw [Demands] at h
    cases hx : x with
    | ok a =>
        rw [hx] at h
        obtain ⟨_, hasked, -⟩ := h.ok_right rfl
        exact iff_of_false (not_traps_ok rfl) (not_traps_ok hasked)
    | error fault =>
        cases hasked : forM requests Request.ask with
        | ok u =>
            rw [hx, hasked] at h
            exact h.elim
        | error fault' =>
            rw [hx, hasked] at h
            obtain rfl : fault = fault' := h
            simp [Traps]
  rw [hasked]
  clear h hasked
  -- from here on only the requests are left, and the first of them decides
  induction requests with
  | nil => exact iff_of_false (not_traps_ok rfl) not_overdraws_nil
  | cons request requests ih =>
      rw [List.forM_cons, overdraws_cons_iff]
      split
      next hmet =>
          rw [Request.ask_eq_ok_iff.mpr hmet]
          exact ih
      next hmet =>
          by_cases hcounted : request.Counted
          · obtain ⟨cause, hcause⟩ := Request.traps_of_counted hcounted hmet
            rw [hcause]
            exact iff_of_true ⟨cause, rfl⟩ hcounted
          · obtain ⟨cause, hcause⟩ := Request.refused_of_not_counted hcounted
            rw [hcause]
            exact iff_of_false (not_traps_refused cause rfl) hcounted

/-- Such a computation fails as one of its requests does. -/
theorem failsBy {P : Fault → Prop} (h : Demands Q x requests)
    (hrequests : ∀ request ∈ requests, FailsBy P request.ask) : FailsBy P x := by
  intro fault hfault
  rw [Demands, hfault] at h
  cases hasked : forM requests Request.ask with
  | ok _ =>
      rw [hasked] at h
      exact h.elim
  | error fault' =>
      rw [hasked] at h
      obtain rfl : fault = fault' := h
      exact FailsBy.forM hrequests fault hasked

/-- Such a computation returns if all requests are met, and only then. -/
theorem returns_iff (h : Demands Q x requests) :
    (∃ a, x = .ok a) ↔ ∀ request ∈ requests, request.Met := by
  have hasked : (∃ a, x = .ok a) ↔ forM requests Request.ask = .ok () := by
    constructor
    · rintro ⟨a, rfl⟩
      obtain ⟨_, hasked, -⟩ := Agree.ok_right h rfl
      exact hasked
    · intro hasked
      rw [Demands, hasked] at h
      cases x with
      | ok a => exact ⟨a, rfl⟩
      | error fault => exact h.elim
  rw [hasked, forM_eq_ok]
  exact forall₂_congr fun _ _ => Request.ask_eq_ok_iff

end Demands

/-! ## Filling, folding and contracting -/

namespace Tensor

/-- A tensor of the shape, in bounds, whose shape can be stored. -/
structure Filled (shape : Shape) (t : Tensor α) : Prop where
  shape_eq : t.shape = shape
  inBounds : t.InBounds
  storable : shape.Storable

variable {shape : Shape} {t : Tensor α} {σ : Type} {s s' : σ}

theorem Filled.rank_eq (h : t.Filled shape) : t.rank = shape.length := by
  rw [Tensor.rank, h.shape_eq]

theorem dense_filled {cells : Array α} (h : dense shape cells = .ok t)
    (hsize : cells.size = shape.cells) : t.Filled shape := by
  obtain ⟨strides, hplain, hrow, -⟩ := dense_eq_ok h
  obtain ⟨hshape, hbounds, -⟩ := dense_spec h hsize
  exact ⟨hshape, hbounds, strides, hplain, hrow⟩

theorem ofCells_filled {cells : Array α} (h : ofCells shape cells = .ok t) :
    t.Filled shape := by
  obtain ⟨needed, hneeded, h⟩ := TensorLogic.bind_eq_ok.mp h
  split at h
  · cases h
  next hsize =>
      obtain ⟨hcells, -, -⟩ := Size.checked_ok hneeded
      exact dense_filled h (by omega)

/-- With a cell for each index, and the size counted, only the strides are left to compute. -/
theorem dense_strides_agree {cells : Array α} {n : Nat} (hplain : Size.plain shape = .ok n)
    (hsize : cells.size = shape.cells) :
    Agree (fun (r : Tensor α) (_ : Unit) => r.Filled shape) (dense shape cells)
      (Size.rowMajor shape >>= fun _ => .ok ()) := by
  have hdense : dense shape cells = Size.rowMajor shape >>= fun layout =>
      .ok { shape, strides := layout.1, offset := 0, buffer := cells } := by
    rw [dense, hplain]
    rfl
  rw [hdense]
  refine Agree.bind_left fun layout hlayout => dense_filled ?_ hsize
  rw [hdense, hlayout]
  rfl

theorem fill_value (f : Index → Run Unit α) :
    (fill shape f).value =
      shape.indices.mapM (fun index => (f index).value) >>= fun cells =>
        dense shape cells.toArray := by
  rw [fill, Shape.collect_eq, bind_map_left, Run.value_bind, Run.value_mapM]
  simp only [Run.value_lift]

/-- Filling with cells that can all be had is a matter of the strides. -/
theorem fill_strides_agree {f : Index → Except Fault α} {n : Nat}
    (hplain : Size.plain shape = .ok n) (hf : ∀ index ∈ shape.indices, ∃ a, f index = .ok a) :
    Agree (fun (r : Tensor α) (_ : Unit) => r.Filled shape)
      (fill shape fun index => (f index : Except Fault α)).value
      (Size.rowMajor shape >>= fun _ => .ok ()) := by
  obtain ⟨cells, hcells⟩ := mapM_ok_of_forall hf
  simp only [fill_value, Run.value_lift, hcells]
  refine dense_strides_agree hplain ?_
  rw [List.size_toArray, ← (mapM_eq_ok.mp hcells).length_eq, Shape.length_indices]

/-- A generated tensor whose size has been checked gets its buffer. -/
theorem generate_ask_agree {f : Index → Except Fault Bool} {n : Nat}
    (hchecked : Size.checked shape = .ok n)
    (hf : ∀ index ∈ shape.indices, ∃ a, f index = .ok a) :
    Agree (fun (r : Tensor Bool) (_ : Unit) => r.Filled shape)
      (generate shape fun index => (f index : Except Fault Bool)).value
      (Request.whole shape).ask := by
  obtain ⟨rfl, -, hplain⟩ := Size.checked_ok hchecked
  rw [generate_eq, Size.checked_ok_iff.mp hchecked, Request.ask, hchecked]
  dsimp only
  rw [Run.value_bind, Run.value_lift]
  exact Agree.bind_left fun _ _ => fill_strides_agree hplain hf

/-- A buffer that grows asks for room with every cell. -/
theorem grown_ask_agree {f : Index → Except Fault Bool} (h : shape.Storable)
    (hf : ∀ index ∈ shape.indices, ∃ a, f index = .ok a) :
    Agree (fun (r : Tensor Bool) (_ : Unit) => r.Filled shape)
      (fill shape (grown shape fun index => (f index : Except Fault Bool))).value
      (Request.growing shape).ask := by
  have hplaces : List.Forall₂ (fun index k => index ∈ shape.indices ∧
      shape.indices.idxOf index = k) shape.indices (List.range shape.cells) := by
    rw [List.forall₂_iff_get]
    refine ⟨by rw [List.length_range, Shape.length_indices], fun k hk hk' => ?_⟩
    simp only [List.get_eq_getElem, List.getElem_range]
    exact ⟨List.getElem_mem hk, (Shape.nodup_indices shape).idxOf_getElem k hk⟩
  have hcell : ∀ index k, (index ∈ shape.indices ∧ shape.indices.idxOf index = k) →
      Agree (fun (_ : Bool) (_ : Unit) => True)
        (grown shape (fun index => (f index : Except Fault Bool)) index : Run Unit Bool).value
        (Size.grow (k + 1) (Cell.width Bool)) := by
    rintro index k ⟨hindex, rfl⟩
    obtain ⟨a, ha⟩ := hf index hindex
    rw [grown, ha]
    show Agree _ (liftM (Size.grow (shape.indices.idxOf index + 1) (Cell.width Bool)) >>=
      fun _ => pure a : Run Unit Bool).value _
    rw [Run.value_bind, Run.value_lift]
    cases Size.grow (shape.indices.idxOf index + 1) (Cell.width Bool) with
    | ok _ => exact trivial
    | error _ => exact rfl
  obtain ⟨strides, hplain, -⟩ := h
  rw [fill_value, Request.ask, Size.growing, forM_eq_mapM, bind_assoc]
  refine Agree.bind (Agree.mapM hplaces hcell).returned fun cells _ hcells => ?_
  rw [hplain]
  refine dense_strides_agree hplain ?_
  rw [List.size_toArray, ← (mapM_eq_ok.mp hcells.1).length_eq, Shape.length_indices]

theorem map2_demands {u : Tensor Bool} {t : Tensor Bool} (ht : t.Filled shape)
    (hu : u.Filled shape) {f : Bool → Bool → Except Fault Bool} (hf : ∀ x y, ∃ z, f x y = .ok z) :
    Demands (Filled shape) (map2 t u fun x y => (f x y : Except Fault Bool)).value
      [.growing shape] := by
  have hcell : ∀ index ∈ shape.indices, ∃ z, (do
      let x ← t.get index
      let y ← u.get index
      f x y) = .ok z := by
    intro index hindex
    obtain ⟨x, hx⟩ := ht.inBounds.get_ok (ht.shape_eq ▸ hindex)
    obtain ⟨y, hy⟩ := hu.inBounds.get_ok (hu.shape_eq ▸ hindex)
    obtain ⟨z, hz⟩ := hf x y
    exact ⟨z, bind_eq_ok.mpr ⟨x, hx, bind_eq_ok.mpr ⟨y, hy, hz⟩⟩⟩
  have hfill := grown_ask_agree ht.storable hcell
  simp only [Run.lift_bind] at hfill
  rw [map2_eq, if_pos (ht.shape_eq.trans hu.shape_eq.symm), ht.shape_eq]
  exact Demands.single hfill

theorem map_demands {t : Tensor Bool} (ht : t.Filled shape) {f : Bool → Except Fault Bool}
    (hf : ∀ x, ∃ z, f x = .ok z) :
    Demands (Filled shape) (t.map fun x => (f x : Except Fault Bool)).value
      [.growing shape] := by
  have hcell : ∀ index ∈ shape.indices, ∃ z, (t.get index >>= f) = .ok z := by
    intro index hindex
    obtain ⟨x, hx⟩ := ht.inBounds.get_ok (ht.shape_eq ▸ hindex)
    obtain ⟨z, hz⟩ := hf x
    exact ⟨z, bind_eq_ok.mpr ⟨x, hx, hz⟩⟩
  have hfill := grown_ask_agree ht.storable hcell
  simp only [Run.lift_bind] at hfill
  rw [map_eq, ht.shape_eq]
  exact Demands.single hfill

/-- What a fold asks for: the block that it reads, and what is left. -/
def folding (outer inner : Shape) : List Request :=
  [.block inner, .whole outer]

/-- What a fold leaves is counted again, which succeeds, and then gets its buffer. -/
theorem fold_demands {t : Tensor Bool} (ht : t.Filled shape) (axes : Nat)
    (haxes : axes ≤ shape.length) {g : List Bool → Except Fault Bool}
    (hg : ∀ cells, ∃ b, g cells = .ok b) :
    Demands (Filled (shape.take (shape.length - axes)))
      (t.fold axes fun cells => (g cells : Except Fault Bool)).value
      (folding (shape.take (shape.length - axes)) (shape.drop (shape.length - axes))) := by
  have houter : t.outerShape axes = shape.take (shape.length - axes) := by
    rw [outerShape, ht.rank_eq, ht.shape_eq]
  have hinner : t.innerShape axes = shape.drop (shape.length - axes) := by
    rw [innerShape, ht.rank_eq, ht.shape_eq]
  obtain ⟨hfront, -⟩ := Shape.storable_iff.mp ht.storable
  have hplain : Size.plain (t.outerShape axes) = .ok (t.outerShape axes).cells := by
    refine Size.plain_ok_iff.mpr fun k => ?_
    rw [houter, List.take_take]
    exact hfront _
  have hcell : ∀ index ∈ (t.outerShape axes).indices,
      ∃ b, (t.blockCells axes index >>= g) = .ok b := by
    intro index hindex
    obtain ⟨cells, hcells⟩ := ht.inBounds.blockCells_ok hindex
    obtain ⟨b, hb⟩ := hg cells
    exact ⟨b, bind_eq_ok.mpr ⟨cells, hcells, hb⟩⟩
  have hfill := fill_strides_agree hplain hcell
  simp only [Run.lift_bind] at hfill
  have hblock : Demands (fun _ => True)
      (liftM (Size.block (t.innerShape axes).cells (Cell.width Bool)) : Run Unit Unit).value
      [.block (t.innerShape axes)] := by
    rw [Run.value_lift]
    exact Demands.single (Agree.refl fun _ => trivial)
  rw [← houter, ← hinner, fold_eq ht.inBounds, if_pos (ht.rank_eq ▸ haxes)]
  refine hblock.run_bind fun _ _ => Demands.single ?_
  rw [Run.value_of_checked hplain, Request.ask, Size.checked_of_plain hplain, Run.value_bind,
    Run.value_lift]
  exact Agree.bind_left fun _ _ => hfill

end Tensor

namespace Join

open Tensor

variable {output : String} {operands : List (Labelled Bool)} {extent : Char → Nat}
  {combine : List Bool → Except Fault Bool}

theorem join_demands (h : Fits output operands extent)
    (hread : ∀ operand ∈ operands, operand.tensor.InBounds)
    (hcombine : ∀ cells, cells.length = operands.length → ∃ b, combine cells = .ok b) :
    Demands (fun joined => joined.folded = (foldedLabels output operands).length ∧
        Filled ((jointLabels output operands).map extent) joined.tensor)
      (join output operands fun cells => (combine cells : Except Fault Bool)).value
      [.whole ((jointLabels output operands).map extent)] := by
  obtain ⟨axes, haxes, hshape⟩ := h.jointAxes_ok
  have hfolded : axes.2.length = (foldedLabels output operands).length := by
    obtain ⟨-, hlabels, -⟩ := jointAxes_spec haxes
    rw [← hlabels, List.length_map]
  have hcell : ∀ index ∈ Shape.indices ((jointLabels output operands).map extent),
      ∃ b, (readAll output operands index >>= combine) = .ok b := by
    intro index hindex
    obtain ⟨cells, hcells, hlength⟩ :=
      h.readAll_ok (fun operand hoperand => (hread operand hoperand).readable) hindex
    obtain ⟨b, hb⟩ := hcombine cells hlength
    exact ⟨b, bind_eq_ok.mpr ⟨cells, hcells, hb⟩⟩
  rw [join_eq, haxes, Run.value_of_checked rfl, hshape]
  refine Demands.single ?_
  dsimp only
  cases hchecked : Size.checked ((jointLabels output operands).map extent) with
  | error fault =>
      rw [Request.ask_of_refused hchecked]
      exact rfl
  | ok n =>
      have hgenerate := generate_ask_agree hchecked hcell
      simp only [Run.lift_bind] at hgenerate
      rw [Run.value_of_checked rfl, Run.value_bind, ← bind_pure (Request.ask _)]
      exact hgenerate.bind fun tensor _ htensor => ⟨hfolded, htensor⟩

end Join

/-- What a contraction asks for: the joint index space, and what the fold of it needs. -/
def contraction (outer inner : Shape) : List Request :=
  .whole (outer ++ inner) :: Tensor.folding outer inner

theorem mem_contraction {outer inner : Shape} {request : Request} :
    request ∈ contraction outer inner ↔
      request = .whole (outer ++ inner) ∨ request = .block inner ∨ request = .whole outer := by
  simp [contraction, Tensor.folding]

namespace Join

variable {output : String} {operands : List (Labelled Bool)} {extent : Char → Nat}
  {agg : Aggregate} {op : Connective}

theorem reduce_fits_demands (h : Fits output operands extent)
    (hread : ∀ operand ∈ operands, operand.tensor.InBounds)
    (hop : op.accepts operands.length) :
    Demands (Tensor.Filled (output.toList.map extent))
      (truthValues.reduce agg output op operands).value
      (contraction (output.toList.map extent) ((foldedLabels output operands).map extent)) := by
  have hjoint : (jointLabels output operands).map extent =
      output.toList.map extent ++ (foldedLabels output operands).map extent := by
    rw [jointLabels, List.map_append]
  have hcombine : ∀ cells : List Bool, cells.length = operands.length →
      ∃ b, (truthValues.connect op cells).value = .ok b := fun cells hcells =>
    connect_returns (hcells ▸ hop)
  have hjoin := join_demands h hread hcombine
  simp only [Run.lift_value, hjoint] at hjoin
  refine hjoin.run_bind fun joined hjoined => ?_
  obtain ⟨hfolded, hfilled⟩ := hjoined
  have houter : (output.toList.map extent ++ (foldedLabels output operands).map extent).take
      ((output.toList.map extent ++ (foldedLabels output operands).map extent).length -
        joined.folded) = output.toList.map extent := by
    refine List.take_left' ?_
    simp [hfolded]
  have hinner : (output.toList.map extent ++ (foldedLabels output operands).map extent).drop
      ((output.toList.map extent ++ (foldedLabels output operands).map extent).length -
        joined.folded) = (foldedLabels output operands).map extent := by
    refine List.drop_left' ?_
    simp [hfolded]
  have hfold := Tensor.fold_demands hfilled joined.folded (by simp [hfolded])
    (aggregate_returns agg)
  rw [houter, hinner] at hfold
  simp only [Run.lift_value] at hfold
  exact hfold

/-- Operands that carry these labels are contracted to the output, and then these labels
are folded, in this order. -/
def Contracts (output : String) (labels : List String) (folded : List Char) : Prop :=
  labels ≠ [] ∧ output.toList.Nodup ∧
    (∀ c ∈ output.toList, c ∈ labels.flatMap String.toList) ∧
    (labels.flatMap String.toList).eraseDups.filter (fun c => !output.toList.contains c) = folded

instance (output : String) (labels : List String) (folded : List Char) :
    Decidable (Contracts output labels folded) :=
  -- Run through the labels of the output, and not through all characters there are.
  have := List.decidableBAll (· ∈ labels.flatMap String.toList) output.toList
  inferInstanceAs (Decidable (_ ∧ _ ∧ _ ∧ _))

/-- The operands carry the labels, and their shapes are the extents of these. -/
def Carry (extent : Char → Nat) (labels : List String) (operands : List (Labelled Bool)) :
    Prop :=
  List.Forall₂ (fun names operand => operand.labels = names ∧
    operand.tensor.Filled (names.toList.map extent)) labels operands

theorem Carry.nil : Carry extent [] [] :=
  List.Forall₂.nil

theorem Carry.cons {t : Tensor Bool} {names : String} {labels : List String}
    (h : t.Filled (names.toList.map extent)) (hrest : Carry extent labels operands) :
    Carry extent (names :: labels) (t.named names :: operands) :=
  List.Forall₂.cons ⟨rfl, h⟩ hrest

/-- A contraction asks for its buffers and needs nothing else. Its operands only have to
be in bounds: whether their own shapes can be stored makes no difference. -/
theorem reduce_bounded_demands (extent : Char → Nat) (labels : List String) (folded : List Char)
    (hlabels : Contracts output labels folded)
    (h : List.Forall₂ (fun names operand => operand.labels = names ∧
      operand.tensor.shape = names.toList.map extent ∧ operand.tensor.InBounds) labels operands)
    (hop : op.accepts labels.length) :
    Demands (Tensor.Filled (output.toList.map extent))
      (truthValues.reduce agg output op operands).value
      (contraction (output.toList.map extent) (folded.map extent)) := by
  obtain ⟨hne, hnodup, hknown, hfolded⟩ := hlabels
  have hletters : operands.flatMap Labelled.letters = labels.flatMap String.toList := by
    clear hne hknown hfolded hop
    induction h with
    | nil => rfl
    | cons hfirst _ ih =>
        rw [List.flatMap_cons, List.flatMap_cons, ih, ← hfirst.1, Labelled.letters]
  have hsized : ∀ operand ∈ operands,
      operand.tensor.shape = operand.letters.map extent ∧ operand.tensor.InBounds := by
    intro operand hoperand
    obtain ⟨names, -, rfl, hbounded⟩ := (exists_of_forall₂ h).2 operand hoperand
    exact hbounded
  have hfits : Fits output operands extent := by
    refine ⟨fun hnil => ?_, fun operand hoperand => (hsized operand hoperand).1, hnodup,
      fun c hc => ?_⟩
    · rw [hnil] at h
      exact hne (List.forall₂_nil_right_iff.mp h)
    · exact List.mem_flatMap.mp (hletters ▸ hknown c hc)
  rw [← hfolded, ← hletters]
  exact reduce_fits_demands hfits (fun operand hoperand => (hsized operand hoperand).2)
    (h.length_eq ▸ hop)

theorem reduce_demands (extent : Char → Nat) (labels : List String) (folded : List Char)
    (hlabels : Contracts output labels folded) (h : Carry extent labels operands)
    (hop : op.accepts labels.length) :
    Demands (Tensor.Filled (output.toList.map extent))
      (truthValues.reduce agg output op operands).value
      (contraction (output.toList.map extent) (folded.map extent)) := by
  refine reduce_bounded_demands extent labels folded hlabels (h.imp fun names operand h => ?_) hop
  exact ⟨h.1, h.2.shape_eq, h.2.inBounds⟩

end Join

end TensorLogic
