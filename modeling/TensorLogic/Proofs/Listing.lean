import TensorLogic.Bindings
import TensorLogic.Proofs.Alike
import TensorLogic.Proofs.Names
import TensorLogic.Proofs.Walk

/-!
# Tensors and bindings as lists of cells

A tensor in bounds is, up to how it is stored, its shape and the list of its cells in
row-major order (`Lists`). Bindings are, for given declarations, the cells of all their
tensors one after the other (`Listed`). What relates two tensors or two bindings cell by
cell relates their lists, and they are equal exactly if their lists are.
-/

namespace TensorLogic

variable {α β : Type}

theorem forall₂_append_iff {R : α → β → Prop} {as as' : List α} {bs bs' : List β}
    (hlen : as.length = bs.length) :
    List.Forall₂ R (as ++ as') (bs ++ bs') ↔ List.Forall₂ R as bs ∧ List.Forall₂ R as' bs' := by
  induction as generalizing bs with
  | nil =>
      obtain rfl := List.length_eq_zero_iff.mp hlen.symm
      simp
  | cons a as ih =>
      obtain ⟨b, bs, rfl⟩ := List.exists_cons_of_length_eq_add_one hlen.symm
      simp only [List.cons_append, List.forall₂_cons, ih (Nat.succ.inj hlen), and_assoc]

namespace Tensor

/-- The tensor has the given shape and the given cells in row-major order. -/
structure Lists (shape : Shape) (cells : List α) (t : Tensor α) : Prop where
  shape_eq : t.shape = shape
  bounds : t.InBounds
  reads : List.Forall₂ (fun index cell => t.get index = .ok cell) shape.indices cells

theorem InBounds.lists {t : Tensor α} (h : t.InBounds) : ∃ cells, Lists t.shape cells t := by
  obtain ⟨cells, hcells⟩ := mapM_ok_of_forall fun index hindex => h.get_ok hindex
  exact ⟨cells, rfl, h, mapM_eq_ok.mp hcells⟩

theorem dense_lists {shape : Shape} {buffer : Array α} {t : Tensor α}
    (h : dense shape buffer = .ok t) (hsize : buffer.size = shape.cells) :
    Lists shape buffer.toList t := by
  obtain ⟨hshape, hbounds, hget⟩ := dense_spec h hsize
  refine ⟨hshape, hbounds, List.forall₂_iff_get.mpr ⟨?_, fun k hk hk' => ?_⟩⟩
  · rw [Shape.length_indices, Array.length_toList, hsize]
  · exact hget k hk' _ (List.getElem?_eq_getElem hk)

namespace Lists

variable {shape : Shape} {cells : List α} {cells' : List β} {t : Tensor α} {u : Tensor β}

theorem length_eq (ht : Lists shape cells t) : cells.length = shape.cells := by
  rw [← ht.reads.length_eq, Shape.length_indices]

theorem cells_eq (ht : Lists shape cells t) : t.cells = .ok cells.toArray := by
  rw [Tensor.cells, Shape.collect_eq, ht.shape_eq, mapM_eq_ok.mpr ht.reads]
  rfl

theorem get_eq (ht : Lists shape cells t) {k : Nat} (hk : k < shape.indices.length) :
    ∃ hk' : k < cells.length, t.get (getElem shape.indices k hk) = .ok (getElem cells k hk') := by
  have hk' : k < cells.length := ht.reads.length_eq ▸ hk
  exact ⟨hk', (List.forall₂_iff_get.mp ht.reads).2 k hk hk'⟩

/-- A relation between tensors is one between their lists. -/
theorem alike_iff {R : α → β → Prop} (ht : Lists shape cells t) (hu : Lists shape cells' u) :
    Alike R t u ↔ List.Forall₂ R cells cells' := by
  have hlen : cells.length = cells'.length := by rw [ht.length_eq, hu.length_eq]
  constructor
  · intro h
    refine List.forall₂_iff_get.mpr ⟨hlen, fun k hk hk' => ?_⟩
    have hindex : k < shape.indices.length := by
      rw [ht.reads.length_eq]
      exact hk
    obtain ⟨_, hget⟩ := ht.get_eq hindex
    obtain ⟨_, hget'⟩ := hu.get_eq hindex
    have hcell := h.cells (getElem shape.indices k hindex) (by
      rw [ht.shape_eq]
      exact List.getElem_mem hindex)
    rw [hget, hget'] at hcell
    exact hcell
  · intro h
    refine ⟨by rw [ht.shape_eq, hu.shape_eq], ht.bounds, hu.bounds, fun index hindex => ?_⟩
    rw [ht.shape_eq] at hindex
    obtain ⟨k, hk, rfl⟩ := List.getElem_of_mem hindex
    obtain ⟨hkt, hget⟩ := ht.get_eq hk
    obtain ⟨hku, hget'⟩ := hu.get_eq hk
    rw [hget, hget']
    exact (List.forall₂_iff_get.mp h).2 k hkt hku

/-- Tensors of one shape are equal exactly if their lists are. -/
theorem equal_eq [BEq α] [LawfulBEq α] {v : Tensor α} {others : List α}
    (ht : Lists shape cells t) (hv : Lists shape others v) :
    Tensor.equal t v = .ok (cells == others) := by
  have hreadt := ht.bounds.readable
  have hreadv := hv.bounds.readable
  obtain ⟨answer, hanswer⟩ := Tensor.equal_ok hreadt hreadv
  have hiff : answer = true ↔ cells = others := by
    have htrue := Tensor.equal_eq_true hreadt hreadv
    rw [hanswer, Except.ok.injEq, and_iff_right (ht.shape_eq.trans hv.shape_eq.symm)] at htrue
    rw [htrue, ht.shape_eq, ← List.forall₂_eq_eq_eq, ← alike_iff ht hv]
    constructor
    · refine fun h => ⟨ht.shape_eq.trans hv.shape_eq.symm, ht.bounds, hv.bounds, ?_⟩
      intro index hindex
      obtain ⟨a, ha⟩ := hreadt index hindex
      rw [← h index (ht.shape_eq ▸ hindex), ha]
      exact rfl
    · intro h index hindex
      have hcell := h.cells index (by rwa [ht.shape_eq])
      obtain ⟨a, ha⟩ := hreadt index (by rwa [ht.shape_eq])
      obtain ⟨b, hb⟩ := hreadv index (by rwa [hv.shape_eq])
      rw [ha, hb] at hcell ⊢
      exact congrArg Except.ok hcell
  rw [hanswer, Except.ok.injEq, Bool.eq_iff_iff, hiff, beq_iff_eq]

end Lists

end Tensor

/-- The number of cells that a list of declarations has. -/
def cellsOf : List (String × Shape) → Nat
  | [] => 0
  | declaration :: declared => declaration.2.cells + cellsOf declared

namespace Bindings

/-- The bindings have exactly the declared names, each with a tensor of the declared shape
whose cells are there to be read. -/
def Fit (shapes : NameMap Shape) (env : Bindings α) : Prop :=
  shapes.Paired (fun shape t => t.shape = shape ∧ t.InBounds) env

/-- The entries are those declared, and their cells, one tensor after the other, are the
given list. -/
inductive Listed : List (String × Shape) → List (String × Tensor α) → List α → Prop
  | nil : Listed [] [] []
  | cons {name : String} {shape : Shape} {t : Tensor α} {cells rest : List α}
      {declared : List (String × Shape)} {entries : List (String × Tensor α)}
      (h : t.Lists shape cells) (hrest : Listed declared entries rest) :
      Listed ((name, shape) :: declared) ((name, t) :: entries) (cells ++ rest)

namespace Listed

variable {declared : List (String × Shape)} {entries : List (String × Tensor α)}
  {entries' : List (String × Tensor β)} {cells : List α} {cells' : List β}

theorem length_eq (h : Listed declared entries cells) : cells.length = cellsOf declared := by
  induction h with
  | nil => rfl
  | cons h _ ih => rw [List.length_append, h.length_eq, ih, cellsOf]

theorem fit (h : Listed declared entries cells) :
    List.Forall₂ (fun d e => d.1 = e.1 ∧ e.2.shape = d.2 ∧ e.2.InBounds) declared entries := by
  induction h with
  | nil => exact .nil
  | cons h _ ih => exact .cons ⟨rfl, h.shape_eq, h.bounds⟩ ih

theorem exists_of_fit
    (h : List.Forall₂ (fun d e => d.1 = e.1 ∧ e.2.shape = d.2 ∧ e.2.InBounds) declared entries) :
    ∃ cells, Listed declared entries cells := by
  induction h with
  | nil => exact ⟨[], .nil⟩
  | @cons d e declared entries hde _ ih =>
      obtain ⟨name, shape⟩ := d
      obtain ⟨name', t⟩ := e
      obtain ⟨hname, hshape, hbounds⟩ := hde
      simp only at hname hshape hbounds
      subst hname hshape
      obtain ⟨rest, hrest⟩ := ih
      obtain ⟨cells, hcells⟩ := hbounds.lists
      exact ⟨cells ++ rest, .cons hcells hrest⟩

theorem single {name : String} {shape : Shape} {t : Tensor α} (h : t.Lists shape cells) :
    Listed [(name, shape)] [(name, t)] cells := by
  rw [← List.append_nil cells]
  exact .cons h .nil

/-- Bindings of one name give it the tensor that has the cells. -/
theorem find?_single {name : String} {shape : Shape} {b : Bindings α}
    (h : Listed [(name, shape)] b.entries cells) :
    ∃ t, b.find? name = some t ∧ t.Lists shape cells := by
  obtain ⟨t, hentries, ht⟩ : ∃ t, b.entries = [(name, t)] ∧ t.Lists shape cells := by
    generalize b.entries = entries at h
    cases h with
    | cons ht hrest =>
        cases hrest
        rw [List.append_nil]
        exact ⟨_, rfl, ht⟩
  have hmem : (name, t) ∈ b.entries := by
    rw [hentries]
    exact List.mem_singleton_self _
  exact ⟨t, NameMap.find?_of_mem hmem, ht⟩

/-- The cells that a traversal of the tensors reads. -/
theorem mapM_cells (h : Listed declared entries cells) :
    ∃ rows, (entries.map (·.2)).mapM Tensor.cells = .ok rows ∧
      rows.flatMap Array.toList = cells := by
  induction h with
  | nil => exact ⟨[], rfl, rfl⟩
  | @cons name shape t cells rest declared entries h _ ih =>
      obtain ⟨rows, hrows, rfl⟩ := ih
      refine ⟨cells.toArray :: rows, ?_, by simp⟩
      rw [List.map_cons, List.mapM_cons, h.cells_eq]
      exact bind_eq_ok.mpr ⟨_, rfl, bind_eq_ok.mpr ⟨rows, hrows, rfl⟩⟩

theorem alike_iff {R : α → β → Prop} (h : Listed declared entries cells)
    (h' : Listed declared entries' cells') :
    List.Forall₂ (fun e e' => e.1 = e'.1 ∧ Tensor.Alike R e.2 e'.2) entries entries' ↔
      List.Forall₂ R cells cells' := by
  induction h generalizing entries' cells' with
  | nil =>
      cases h'
      simp
  | cons h _ ih =>
      cases h' with
      | cons h' hrest' =>
          rw [List.forall₂_cons, forall₂_append_iff (by rw [h.length_eq, h'.length_eq]),
            ih hrest', h.alike_iff h']
          simp

/-- Bindings are equal exactly if their lists are. -/
theorem entriesEqual_eq [BEq α] [LawfulBEq α] {others : List (String × Tensor α)}
    {cells' : List α} (h : Listed declared entries cells)
    (h' : Listed declared others cells') :
    entriesEqual entries others = .ok (cells == cells') := by
  induction h generalizing others cells' with
  | nil =>
      cases h'
      rfl
  | @cons name shape t cells rest declared entries h _ ih =>
      cases h' with
      | @cons _ _ u others' rest' _ entries' h' hrest' =>
          have hlen : cells.length = others'.length := by rw [h.length_eq, h'.length_eq]
          have hsplit : (cells ++ rest == others' ++ rest') =
              (cells == others' && rest == rest') := by
            rw [Bool.eq_iff_iff, Bool.and_eq_true]
            simp only [beq_iff_eq]
            constructor
            · exact fun happend => List.append_inj happend hlen
            · rintro ⟨rfl, rfl⟩
              rfl
          rw [entriesEqual, if_neg (fun hne => hne rfl), h.equal_eq h', hsplit]
          show (if cells == others' then entriesEqual entries entries' else .ok false) = _
          rw [ih hrest']
          cases cells == others' <;> rfl

end Listed

theorem equal_eq [BEq α] [LawfulBEq α] {shapes : NameMap Shape} {env env' : Bindings α}
    {cells cells' : List α} (h : Listed shapes.entries env.entries cells)
    (h' : Listed shapes.entries env'.entries cells') :
    Bindings.equal env env' = .ok (cells == cells') := by
  have hsize : env.size = env'.size := by
    rw [NameMap.size, NameMap.size, ← h.fit.length_eq, ← h'.fit.length_eq]
  rw [Bindings.equal, if_pos hsize, h.entriesEqual_eq h']

end Bindings

end TensorLogic
