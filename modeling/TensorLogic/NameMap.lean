/-!
# Values by name

A finite map from names to values, kept as the list of its entries in the order
of their names, which is the order of code points. The order is part of the type,
so a map has one form only, and whatever visits a map visits it by name.
-/

namespace TensorLogic

/-- A finite map from names, with its entries in strictly increasing order of name. -/
structure NameMap (β : Type) where
  entries : List (String × β)
  ordered : entries.Pairwise fun a b => a.1 < b.1

namespace NameMap

variable {β γ : Type}

def empty : NameMap β :=
  { entries := [], ordered := .nil }

instance : Inhabited (NameMap β) where
  default := empty

/-- Enters a value in order of name, in place of one of the same name. -/
def insertEntry (name : String) (value : β) : List (String × β) → List (String × β)
  | [] => [(name, value)]
  | entry :: rest =>
      if name < entry.1 then (name, value) :: entry :: rest
      else if name = entry.1 then (name, value) :: rest
      else entry :: insertEntry name value rest

theorem mem_insertEntry {name : String} {value : β} {entries : List (String × β)}
    {e : String × β} (h : e ∈ insertEntry name value entries) :
    e = (name, value) ∨ e ∈ entries := by
  induction entries with
  | nil => simpa [insertEntry] using h
  | cons entry rest ih =>
      simp only [insertEntry] at h
      split at h
      · simpa using h
      · split at h
        · rcases List.mem_cons.mp h with h | h
          · exact .inl h
          · exact .inr (List.mem_cons_of_mem _ h)
        · rcases List.mem_cons.mp h with h | h
          · exact .inr (h ▸ List.mem_cons_self)
          · exact (ih h).imp_right (List.mem_cons_of_mem _)

theorem ordered_insertEntry (name : String) (value : β) {entries : List (String × β)}
    (h : entries.Pairwise fun a b => a.1 < b.1) :
    (insertEntry name value entries).Pairwise fun a b => a.1 < b.1 := by
  induction entries with
  | nil => simp [insertEntry]
  | cons entry rest ih =>
      obtain ⟨hentry, hrest⟩ := List.pairwise_cons.mp h
      simp only [insertEntry]
      split
      next hlt =>
        refine List.pairwise_cons.mpr ⟨fun e he => ?_, h⟩
        rcases List.mem_cons.mp he with rfl | he
        · exact hlt
        · exact String.lt_trans hlt (hentry e he)
      next hnlt =>
        split
        next heq =>
          exact List.pairwise_cons.mpr ⟨fun e he => heq ▸ hentry e he, hrest⟩
        next hne =>
          refine List.pairwise_cons.mpr ⟨fun e he => ?_, ih hrest⟩
          rcases mem_insertEntry he with rfl | he
          · grind
          · exact hentry e he

def insert (map : NameMap β) (name : String) (value : β) : NameMap β where
  entries := insertEntry name value map.entries
  ordered := ordered_insertEntry name value map.ordered

def find? (map : NameMap β) (name : String) : Option β :=
  map.entries.lookup name

/-- The map of the given bindings; of two with one name the later counts. -/
def ofList (bindings : List (String × β)) : NameMap β :=
  bindings.foldl (fun map binding => map.insert binding.1 binding.2) empty

def names (map : NameMap β) : List String :=
  map.entries.map (·.1)

def values (map : NameMap β) : List β :=
  map.entries.map (·.2)

def size (map : NameMap β) : Nat :=
  map.entries.length

/-- The values, each sent through `f` in order of name. -/
@[specialize] def mapM {m : Type → Type} [Monad m] (map : NameMap β)
    (f : String → β → m γ) : m (NameMap γ) := do
  let bindings ← map.entries.mapM fun (name, value) => do
    let image ← f name value
    pure (name, image)
  pure (ofList bindings)

end NameMap

end TensorLogic
