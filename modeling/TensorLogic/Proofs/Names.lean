import Mathlib.Data.List.Sort
import TensorLogic.NameMap
import TensorLogic.Proofs.Cells

/-!
# Lookup in a map from names

Entering a value changes the lookup of its name and of no other. Since the order of the
entries is fixed, two maps have the same names exactly if their entries go in pairs
(`Paired`), and then lookups go in pairs as well. A traversal keeps the names, so what it
returns is paired with what it traversed.
-/

namespace TensorLogic.NameMap

variable {β γ : Type}

theorem lookup_cons (name : String) (entry : String × β) (rest : List (String × β)) :
    (entry :: rest).lookup name =
      if name = entry.1 then some entry.2 else rest.lookup name := by
  obtain ⟨other, value⟩ := entry
  by_cases h : name = other
  · simp [h]
  · simp [List.lookup_cons, h, beq_eq_false_iff_ne.mpr h]

theorem lookup_insertEntry (name other : String) (value : β) (entries : List (String × β)) :
    (insertEntry name value entries).lookup other =
      if other = name then some value else entries.lookup other := by
  induction entries with
  | nil => rw [insertEntry, lookup_cons]
  | cons entry rest ih =>
      rw [insertEntry]
      split
      · rw [lookup_cons]
      · split
        next heq => grind [lookup_cons]
        next hne => grind [lookup_cons]

@[simp] theorem find?_insert (map : NameMap β) (name other : String) (value : β) :
    (map.insert name value).find? other =
      if other = name then some value else map.find? other :=
  lookup_insertEntry name other value map.entries

/-- Every value, sent through `f`. -/
def map (f : β → γ) (map : NameMap β) : NameMap γ where
  entries := map.entries.map fun entry => (entry.1, f entry.2)
  ordered := by simpa [List.pairwise_map] using map.ordered

@[simp] theorem find?_map (f : β → γ) (map : NameMap β) (name : String) :
    (map.map f).find? name = (map.find? name).map f := by
  show (map.entries.map fun entry => (entry.1, f entry.2)).lookup name = _
  rw [find?]
  induction map.entries with
  | nil => rfl
  | cons entry rest ih =>
      rw [List.map_cons, lookup_cons, lookup_cons, ih]
      split <;> rfl

theorem lookup_of_mem {entries : List (String × β)} {entry : String × β}
    (hordered : entries.Pairwise fun a b => a.1 < b.1) (h : entry ∈ entries) :
    entries.lookup entry.1 = some entry.2 := by
  induction entries with
  | nil => cases h
  | cons first rest ih =>
      obtain ⟨hfirst, hrest⟩ := List.pairwise_cons.mp hordered
      rw [lookup_cons]
      rcases List.mem_cons.mp h with rfl | h
      · rw [if_pos rfl]
      · rw [if_neg, ih hrest h]
        intro heq
        exact String.lt_irrefl _ (heq ▸ hfirst entry h)

theorem find?_of_mem {map : NameMap β} {entry : String × β} (h : entry ∈ map.entries) :
    map.find? entry.1 = some entry.2 :=
  lookup_of_mem map.ordered h

theorem mem_of_find? {map : NameMap β} {name : String} {value : β}
    (h : map.find? name = some value) : (name, value) ∈ map.entries := by
  obtain ⟨before, behind, hsplit, -⟩ := List.lookup_eq_some_iff.mp h
  rw [hsplit]
  exact List.mem_append_right _ List.mem_cons_self

/-- The names are in order, so what is found under them is all there is to a map. -/
theorem entries_eq_of_find? {map map' : NameMap β}
    (h : ∀ name value, map.find? name = some value ↔ map'.find? name = some value) :
    map.entries = map'.entries := by
  have hmem : ∀ entry, entry ∈ map.entries ↔ entry ∈ map'.entries := fun entry =>
    ⟨fun hentry => mem_of_find? ((h _ _).mp (find?_of_mem hentry)),
      fun hentry => mem_of_find? ((h _ _).mpr (find?_of_mem hentry))⟩
  have hirrefl : Std.Irrefl fun e e' : String × β => e.1 < e'.1 :=
    ⟨fun _ => String.lt_irrefl _⟩
  have hantisymm : Std.Antisymm fun e e' : String × β => e.1 < e'.1 :=
    ⟨fun _ _ hlt hgt => absurd hgt (String.lt_asymm hlt)⟩
  exact map.ordered.eq_of_mem_iff map'.ordered hmem

/-! ## Maps with the same names -/

/-- The two maps have the same names, with related values. -/
def Paired (R : β → γ → Prop) (map : NameMap β) (map' : NameMap γ) : Prop :=
  List.Forall₂ (fun e e' => e.1 = e'.1 ∧ R e.2 e'.2) map.entries map'.entries

theorem lookup_rel {R : β → γ → Prop} {entries : List (String × β)}
    {entries' : List (String × γ)}
    (h : List.Forall₂ (fun e e' => e.1 = e'.1 ∧ R e.2 e'.2) entries entries')
    (name : String) : Option.Rel R (entries.lookup name) (entries'.lookup name) := by
  induction h with
  | nil => exact .none
  | @cons e e' rest rest' hee' _ ih =>
      rw [lookup_cons, lookup_cons, ← hee'.1]
      split
      · exact .some hee'.2
      · exact ih

theorem Paired.find?_rel {R : β → γ → Prop} {map : NameMap β} {map' : NameMap γ}
    (h : map.Paired R map') (name : String) :
    Option.Rel R (map.find? name) (map'.find? name) :=
  lookup_rel h name

theorem Paired.flip {R : β → γ → Prop} {map : NameMap β} {map' : NameMap γ}
    (h : map.Paired R map') : map'.Paired (fun c b => R b c) map := by
  have hflipped : List.Forall₂ (fun e' e => e.1 = e'.1 ∧ R e.2 e'.2) map'.entries map.entries :=
    List.Forall₂.flip h
  exact List.Forall₂.imp (fun _ _ hee' => ⟨hee'.1.symm, hee'.2⟩) hflipped

theorem Paired.trans {δ : Type} {R : β → γ → Prop} {S : γ → δ → Prop} {map : NameMap β}
    {map' : NameMap γ} {map'' : NameMap δ} (h : map.Paired R map') (h' : map'.Paired S map'') :
    map.Paired (fun b d => ∃ c, R b c ∧ S c d) map'' := by
  refine List.Forall₂.imp (fun e e'' hee'' => ?_) (forall₂_trans h h')
  obtain ⟨e', hfirst, hsecond⟩ := hee''
  exact ⟨hfirst.1.trans hsecond.1, e'.2, hfirst.2, hsecond.2⟩

theorem ordered_of_forall₂ {entries : List (String × β)} {entries' : List (String × γ)}
    (h : List.Forall₂ (fun e e' => e.1 = e'.1) entries entries')
    (hordered : entries.Pairwise fun a b => a.1 < b.1) :
    entries'.Pairwise fun a b => a.1 < b.1 := by
  have hnames : entries.map (·.1) = entries'.map (·.1) := by
    rw [← List.forall₂_eq_eq_eq, List.forall₂_map_left_iff, List.forall₂_map_right_iff]
    exact h
  have hordered : (entries.map (·.1)).Pairwise (· < ·) := by
    rw [List.pairwise_map]
    exact hordered
  rw [hnames, List.pairwise_map] at hordered
  exact hordered

/-! ## Traversals -/

/-- An entry behind all others goes to the end. -/
theorem insertEntry_of_forall_lt {name : String} {value : β} {entries : List (String × β)}
    (h : ∀ entry ∈ entries, entry.1 < name) :
    insertEntry name value entries = entries ++ [(name, value)] := by
  induction entries with
  | nil => rfl
  | cons entry rest ih =>
      have hlt := h entry List.mem_cons_self
      rw [insertEntry, if_neg (String.lt_asymm hlt), if_neg (String.ne_of_lt hlt).symm,
        ih fun e he => h e (List.mem_cons_of_mem _ he)]
      rfl

/-- Bindings that are in order already are the entries of their map. -/
theorem entries_ofList {bindings : List (String × β)}
    (h : bindings.Pairwise fun a b => a.1 < b.1) : (ofList bindings).entries = bindings := by
  -- on the way, what has been entered and what has not make up the list
  have hfold : ∀ (rest : List (String × β)) (map : NameMap β),
      (map.entries ++ rest).Pairwise (fun a b => a.1 < b.1) →
      (rest.foldl (fun map binding => map.insert binding.1 binding.2) map).entries =
        map.entries ++ rest := by
    intro rest
    induction rest with
    | nil =>
        intro map _
        simp
    | cons binding rest ih =>
        intro map hordered
        have hlast : ∀ entry ∈ map.entries, entry.1 < binding.1 := fun entry hentry =>
          (List.pairwise_append.mp hordered).2.2 entry hentry binding List.mem_cons_self
        have hinsert : (map.insert binding.1 binding.2).entries = map.entries ++ [binding] :=
          insertEntry_of_forall_lt hlast
        have happend : (map.entries ++ [binding]) ++ rest = map.entries ++ binding :: rest := by
          simp
        rw [List.foldl_cons, ih _ (by rw [hinsert, happend]; exact hordered), hinsert, happend]
  exact hfold bindings .empty h

theorem mapM_ok {f : String → β → Except Fault γ} {map : NameMap β}
    {images : List (String × γ)}
    (h : List.Forall₂ (fun e e' => e.1 = e'.1 ∧ f e.1 e.2 = .ok e'.2) map.entries images) :
    ∃ map', map.mapM f = .ok map' ∧ map'.entries = images := by
  refine ⟨ofList images, bind_eq_ok.mpr ⟨images, mapM_eq_ok.mpr ?_, rfl⟩, ?_⟩
  · refine h.imp fun e e' hee' => ?_
    exact bind_eq_ok.mpr ⟨e'.2, hee'.2, by rw [hee'.1]; rfl⟩
  · exact entries_ofList (ordered_of_forall₂ (h.imp fun _ _ hee' => hee'.1) map.ordered)

/-- A run over a map is the run over its entries. -/
theorem mapM_run {σ : Type} {f : String → β → Run σ γ} {map : NameMap β} {map' : NameMap γ}
    {s s' : σ} (h : map.mapM f s = .ok map' s') :
    (map.entries.mapM fun (entry : String × β) => do
      let image ← f entry.1 entry.2
      pure (entry.1, image)) s = .ok map'.entries s' := by
  obtain ⟨bindings, s₁, hbindings, h⟩ := Run.bind_eq_ok.mp h
  cases h
  have hnames : List.Forall₂ (fun e e' => e.1 = e'.1) map.entries bindings := by
    refine (Run.mapM_ok hbindings).imp fun e e' h => ?_
    obtain ⟨s, s', h⟩ := h
    obtain ⟨image, s₁, -, h⟩ := Run.bind_eq_ok.mp h
    cases h
    rfl
  rw [entries_ofList (ordered_of_forall₂ hnames map.ordered)]
  exact hbindings

end TensorLogic.NameMap
