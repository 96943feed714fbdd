import Mathlib.Data.List.ProdSigma
import TensorLogic.Proofs.Codes
import TensorLogic.Proofs.Walk
import TensorLogic.Table.Codec

/-!
# The codes in the columns of a tensor

A tensor tabulates a list of codes if its cell `[v, i, k]` says whether the code at place
`i` of block `k` is `v` (`Tabulates`). Codes that are no value of the first axis leave an
empty column behind, so a tensor may tabulate several lists, but only one whose codes are
all values (`Tabulates.eq_of_lt`).

Writing a tensor looks for this list column by column. It succeeds exactly if there is
one, and the text is that of the list (`encode_eq_ok`). The tensor does not have to be
square for that, and it may have no cell at all.
-/

namespace TensorLogic.Table

variable {t u : Tensor Bool} {size inputs blocks : Nat} {codes : List Nat}

/-! ## Places in a table -/

theorem mem_indices_three {a b c : Nat} {index : Index} :
    index ∈ Shape.indices [a, b, c] ↔
      ∃ v i k, v < a ∧ i < b ∧ k < c ∧ index = [v, i, k] := by
  simp only [Shape.mem_indices_cons, Shape.mem_indices_nil, exists_eq_left]
  constructor
  · rintro ⟨v, hv, behind, ⟨i, hi, last, ⟨k, hk, rfl⟩, rfl⟩, rfl⟩
    exact ⟨v, i, k, hv, hi, hk, rfl⟩
  · rintro ⟨v, i, k, hv, hi, hk, rfl⟩
    exact ⟨v, hv, _, ⟨i, hi, _, ⟨k, hk, rfl⟩, rfl⟩, rfl⟩

/-- The code at place `i` of block `k` stands at `k * inputs + i`. -/
theorem place_lt {i k : Nat} (hi : i < inputs) (hk : k < blocks) :
    k * inputs + i < blocks * inputs :=
  calc k * inputs + i < (k + 1) * inputs := by
        rw [Nat.succ_mul]
        omega
    _ ≤ blocks * inputs := Nat.mul_le_mul_right inputs hk

theorem exists_place {p : Nat} (h : p < blocks * inputs) :
    ∃ k i, k < blocks ∧ i < inputs ∧ p = k * inputs + i := by
  have hinputs : 0 < inputs := by
    rcases Nat.eq_zero_or_pos inputs with rfl | hpos
    · simp at h
    · exact hpos
  refine ⟨p / inputs, p % inputs, ?_, Nat.mod_lt p hinputs, ?_⟩
  · exact Nat.div_lt_of_lt_mul (by rwa [Nat.mul_comm])
  · exact (Nat.div_add_mod' p inputs).symm

/-- Block and place of each code, in the order of the codes. -/
def places (blocks inputs : Nat) : List (Nat × Nat) :=
  List.range blocks ×ˢ List.range inputs

theorem length_places (blocks inputs : Nat) : (places blocks inputs).length = blocks * inputs := by
  rw [places, List.length_product, List.length_range, List.length_range]

theorem getElem?_places {i k : Nat} (hi : i < inputs) (hk : k < blocks) :
    (places blocks inputs)[k * inputs + i]? = some (k, i) := by
  have hlen : ∀ k : Nat, ((List.range inputs).map fun i => (k, i)).length = inputs := fun k => by
    rw [List.length_map, List.length_range]
  have hblock := Tensor.getElem?_flatMap_range hlen hk hi
  rw [List.getElem?_map, List.getElem?_range hi] at hblock
  exact hblock

/-! ## Tabulated codes -/

/-- Cell `[v, i, k]` says whether the code at place `i` of block `k` is `v`. -/
structure Tabulates (t : Tensor Bool) (size inputs blocks : Nat) (codes : List Nat) : Prop where
  shape_eq : t.shape = [size, inputs, blocks]
  length_eq : codes.length = blocks * inputs
  get_eq {v i k : Nat} : v < size → i < inputs → k < blocks →
    t.get [v, i, k] = .ok (codes[k * inputs + i]? == some v)

namespace Tabulates

theorem readable (h : Tabulates t size inputs blocks codes) : t.Readable := by
  intro index hindex
  rw [h.shape_eq] at hindex
  obtain ⟨v, i, k, hv, hi, hk, rfl⟩ := mem_indices_three.mp hindex
  exact ⟨_, h.get_eq hv hi hk⟩

/-- Two tensors that tabulate the same codes are equal. -/
theorem equal_eq (h : Tabulates t size inputs blocks codes)
    (h' : Tabulates u size inputs blocks codes) : t.equal u = .ok true := by
  refine (Tensor.equal_eq_true h.readable h'.readable).mpr
    ⟨h.shape_eq.trans h'.shape_eq.symm, fun index hindex => ?_⟩
  rw [h.shape_eq] at hindex
  obtain ⟨v, i, k, hv, hi, hk, rfl⟩ := mem_indices_three.mp hindex
  rw [h.get_eq hv hi hk, h'.get_eq hv hi hk]

/-- Codes that are values can be read off the tensor. -/
theorem eq_of_lt {codes' : List Nat} (h : Tabulates t size inputs blocks codes)
    (h' : Tabulates t size inputs blocks codes') (hlt : ∀ c ∈ codes', c < size) :
    codes = codes' := by
  refine List.ext_getElem (h.length_eq.trans h'.length_eq.symm) fun p hp hp' => ?_
  obtain ⟨k, i, hk, hi, rfl⟩ := exists_place (h.length_eq ▸ hp)
  have hvalue := hlt _ (List.getElem_mem hp')
  have hcell := (h.get_eq hvalue hi hk).symm.trans (h'.get_eq hvalue hi hk)
  rw [List.getElem?_eq_getElem hp', List.getElem?_eq_getElem hp] at hcell
  simpa using hcell

end Tabulates

/-! ## The value of a column -/

variable {table : Tensor Bool} {i k : Nat}

/-- Behind a value, a column has to be empty. -/
theorem onlyValue_seen {count first u w : Nat} :
    onlyValue table i k count first (some u) = .ok (some w) ↔
      w = u ∧ ∀ v, first ≤ v → v < first + count → table.get [v, i, k] = .ok false := by
  induction count generalizing first with
  | zero =>
      rw [onlyValue]
      constructor
      · intro h
        cases h
        exact ⟨rfl, fun v _ _ => by omega⟩
      · rintro ⟨rfl, -⟩
        rfl
  | succ count ih =>
      rw [onlyValue, bind_eq_ok]
      constructor
      · rintro ⟨b, hb, h⟩
        cases b with
        | true => cases h
        | false =>
            obtain ⟨rfl, hrest⟩ := ih.mp h
            refine ⟨rfl, fun v hfirst hv => ?_⟩
            rcases Nat.eq_or_lt_of_le hfirst with rfl | hlt
            · exact hb
            · exact hrest v hlt (by omega)
      · rintro ⟨rfl, hall⟩
        refine ⟨false, hall first (Nat.le_refl _) (by omega), ih.mpr ⟨rfl, fun v hv hv' => ?_⟩⟩
        exact hall v (by omega) (by omega)

/-- A search that has seen no value finds the only one. -/
theorem onlyValue_unseen {count first w : Nat} :
    onlyValue table i k count first none = .ok (some w) ↔
      first ≤ w ∧ w < first + count ∧
        ∀ v, first ≤ v → v < first + count → table.get [v, i, k] = .ok (v == w) := by
  induction count generalizing first with
  | zero =>
      rw [onlyValue]
      constructor
      · intro h
        cases h
      · rintro ⟨hle, hlt, -⟩
        omega
  | succ count ih =>
      rw [onlyValue, bind_eq_ok]
      constructor
      · rintro ⟨b, hb, h⟩
        cases b with
        | true =>
            -- this is the value, and the rest of the column has to be empty
            obtain ⟨rfl, hrest⟩ := onlyValue_seen.mp h
            refine ⟨Nat.le_refl _, by omega, fun v hfirst hv => ?_⟩
            rcases Nat.eq_or_lt_of_le hfirst with rfl | hlt
            · simpa using hb
            · rw [hrest v hlt (by omega), beq_eq_false_iff_ne.mpr (by omega)]
        | false =>
            obtain ⟨hle, hlt, hrest⟩ := ih.mp h
            refine ⟨by omega, by omega, fun v hfirst hv => ?_⟩
            rcases Nat.eq_or_lt_of_le hfirst with rfl | hlt'
            · rw [hb, beq_eq_false_iff_ne.mpr (by omega)]
            · exact hrest v hlt' (by omega)
      · rintro ⟨hle, hlt, hall⟩
        have hfirst := hall first (Nat.le_refl _) (by omega)
        rcases Nat.eq_or_lt_of_le hle with rfl | hbehind
        · rw [beq_self_eq_true] at hfirst
          refine ⟨true, hfirst, onlyValue_seen.mpr ⟨rfl, fun v hv hv' => ?_⟩⟩
          rw [hall v (by omega) (by omega), beq_eq_false_iff_ne.mpr (by omega)]
        · rw [beq_eq_false_iff_ne.mpr (by omega)] at hfirst
          refine ⟨false, hfirst, ih.mpr ⟨hbehind, by omega, fun v hv hv' => ?_⟩⟩
          exact hall v (by omega) (by omega)

/-- The code of a column, which is refused if no value or more than one holds. -/
def columnCode (table : Tensor Bool) (size i k : Nat) : Except Fault Nat := do
  match ← onlyValue table i k size 0 none with
  | some v => .ok v
  | none => refuse (.ambiguousCell i k)

theorem columnCode_eq_ok {w : Nat} :
    columnCode table size i k = .ok w ↔
      w < size ∧ ∀ v < size, table.get [v, i, k] = .ok (v == w) := by
  have honly : columnCode table size i k = .ok w ↔
      onlyValue table i k size 0 none = .ok (some w) := by
    rw [columnCode, bind_eq_ok]
    constructor
    · rintro ⟨seen, hseen, h⟩
      cases seen with
      | none => cases h
      | some v =>
          cases h
          exact hseen
    · intro h
      exact ⟨some w, h, rfl⟩
  rw [honly, onlyValue_unseen]
  simp

/-! ## All columns -/

/-- The codes are collected block by block, and place by place in each. -/
theorem codes_eq (table : Tensor Bool) (size inputs blocks : Nat) :
    Table.codes table size inputs blocks =
      (·.toArray) <$> (places blocks inputs).mapM fun place =>
        columnCode table size place.2 place.1 := by
  have hfold : Table.codes table size inputs blocks =
      (places blocks inputs).foldlM (fun acc place => do
        let code ← columnCode table size place.2 place.1
        pure (acc.push code)) #[] := by
    have hproduct : places blocks inputs =
        (List.range blocks).flatMap fun k => (List.range inputs).map fun i => (k, i) := rfl
    simp only [hproduct, Shape.foldlM_flatMap, List.foldlM_map, Table.codes, Shape.countUp_eq,
      List.range_eq_range']
    refine congrArg (fun step => List.foldlM step #[] _) (funext fun acc => funext fun k => ?_)
    refine congrArg (fun step => List.foldlM step acc _) (funext fun acc => funext fun i => ?_)
    rw [columnCode, bind_assoc]
    refine congrArg (onlyValue table i k size 0 none >>= ·) (funext fun seen => ?_)
    cases seen <;> rfl
  rw [hfold]
  simp only [bind_pure_comp, List.foldlM_push_eq_append]
  simp

/-- A visit of all places gives a list with the result of each place where it stands. -/
theorem mapM_places_eq_ok {f : Nat × Nat → Except Fault Nat} {list : List Nat} :
    (places blocks inputs).mapM f = .ok list ↔ list.length = blocks * inputs ∧
      ∀ {i k : Nat}, i < inputs → k < blocks →
        ∃ w, list[k * inputs + i]? = some w ∧ f (k, i) = .ok w := by
  have hlength : (places blocks inputs).length = list.length ↔ list.length = blocks * inputs := by
    rw [length_places, eq_comm]
  rw [mapM_eq_ok, List.forall₂_iff_get, ← hlength]
  refine and_congr_right fun hlen => ⟨fun h i k hi hk => ?_, fun h p hp hp' => ?_⟩
  · obtain ⟨hp, hplace⟩ := List.getElem?_eq_some_iff.mp (getElem?_places hi hk)
    have hp' : k * inputs + i < list.length := hlen ▸ hp
    have hresult := h _ hp hp'
    rw [List.get_eq_getElem, hplace] at hresult
    exact ⟨_, List.getElem?_eq_getElem hp', hresult⟩
  · obtain ⟨k, i, hk, hi, rfl⟩ := exists_place (length_places blocks inputs ▸ hp)
    obtain ⟨w, hw, hresult⟩ := h hi hk
    obtain ⟨_, hplace⟩ := List.getElem?_eq_some_iff.mp (getElem?_places hi hk)
    rw [List.getElem?_eq_getElem hp', Option.some.injEq] at hw
    rw [List.get_eq_getElem, hplace, hresult, List.get_eq_getElem, hw]

/-- The codes are found if the tensor tabulates some that are values of its first axis. -/
theorem codes_eq_ok {result : Array Nat} (hshape : table.shape = [size, inputs, blocks]) :
    Table.codes table size inputs blocks = .ok result ↔
      Tabulates table size inputs blocks result.toList ∧ ∀ c ∈ result.toList, c < size := by
  have hlist : Table.codes table size inputs blocks = .ok result ↔
      (places blocks inputs).mapM (fun place => columnCode table size place.2 place.1) =
        .ok result.toList := by
    rw [codes_eq, map_eq_pure_bind, bind_eq_ok]
    constructor
    · rintro ⟨list, hlist, h⟩
      cases h
      exact hlist
    · intro h
      exact ⟨_, h, rfl⟩
  rw [hlist, mapM_places_eq_ok]
  simp only [columnCode_eq_ok]
  constructor
  · rintro ⟨hlen, hcode⟩
    refine ⟨⟨hshape, hlen, fun hv hi hk => ?_⟩, fun c hc => ?_⟩
    · obtain ⟨w, hw, -, hcells⟩ := hcode hi hk
      rw [hcells _ hv, hw, Option.some_beq_some, BEq.comm]
    · obtain ⟨p, hp, rfl⟩ := List.getElem_of_mem hc
      obtain ⟨k, i, hk, hi, rfl⟩ := exists_place (hlen ▸ hp)
      obtain ⟨w, hw, hlt, -⟩ := hcode hi hk
      rw [List.getElem?_eq_getElem hp, Option.some.injEq] at hw
      rwa [hw]
  · rintro ⟨htable, hlt⟩
    refine ⟨htable.length_eq, fun {i k} hi hk => ?_⟩
    have hp : k * inputs + i < result.toList.length := htable.length_eq ▸ place_lt hi hk
    refine ⟨_, List.getElem?_eq_getElem hp, hlt _ (List.getElem_mem hp), fun v hv => ?_⟩
    rw [htable.get_eq hv hi hk, List.getElem?_eq_getElem hp, Option.some_beq_some, BEq.comm]

/-! ## Writing -/

/-- A tensor is written exactly if it tabulates codes that are values of its first axis,
and what is written are these codes. Their text has to be within what can be asked for. -/
theorem encode_eq_ok {s : String} :
    encode table = .ok s ↔ ∃ size inputs blocks codes,
      Tabulates table size inputs blocks codes ∧ (∀ c ∈ codes, c < size) ∧
        inputs * blocks < Word.bound ∧ Size.reserve (inputs * blocks) (Cell.width String) = .ok () ∧
        s = written codes := by
  have hcube : ∀ {size inputs blocks : Nat}, table.shape = [size, inputs, blocks] →
      encode table = (do
        Size.reserve (← Word.check (inputs * blocks)) (Cell.width String)
        let codes ← Table.codes table size inputs blocks
        .ok (written codes.toList)) := by
    intro size inputs blocks hshape
    rw [encode, hshape]
    rfl
  constructor
  · intro h
    obtain ⟨size, inputs, blocks, hshape⟩ : ∃ size inputs blocks,
        table.shape = [size, inputs, blocks] := by
      rw [encode] at h
      split at h
      next size inputs blocks hshape => exact ⟨size, inputs, blocks, hshape⟩
      next => cases h
    rw [hcube hshape] at h
    obtain ⟨count, hcount, h⟩ := bind_eq_ok.mp h
    obtain ⟨_, hreserved, h⟩ := bind_eq_ok.mp h
    obtain ⟨codes, hcodes, h⟩ := bind_eq_ok.mp h
    cases h
    obtain ⟨htable, hlt⟩ := (codes_eq_ok hshape).mp hcodes
    rw [Word.check] at hcount
    split at hcount
    next hword =>
        cases hcount
        exact ⟨size, inputs, blocks, codes.toList, htable, hlt, hword, hreserved, rfl⟩
    next => cases hcount
  · rintro ⟨size, inputs, blocks, codes, htable, hlt, hword, hreserved, rfl⟩
    have hcodes : Table.codes table size inputs blocks = .ok codes.toArray :=
      (codes_eq_ok htable.shape_eq).mpr ⟨htable, hlt⟩
    rw [hcube htable.shape_eq, Word.check, if_pos hword]
    exact bind_eq_ok.mpr ⟨_, rfl, bind_eq_ok.mpr ⟨(), hreserved,
      bind_eq_ok.mpr ⟨_, hcodes, rfl⟩⟩⟩

/-- Of a tensor that tabulates any codes, these are the ones that can be written. -/
theorem Tabulates.encode_eq_ok (h : Tabulates table size inputs blocks codes) {s : String} :
    encode table = .ok s ↔ (∀ c ∈ codes, c < size) ∧ inputs * blocks < Word.bound ∧
      Size.reserve (inputs * blocks) (Cell.width String) = .ok () ∧ s = written codes := by
  rw [Table.encode_eq_ok]
  constructor
  · rintro ⟨size', inputs', blocks', codes', htable, hlt, hword, hreserved, rfl⟩
    have hshape := h.shape_eq.symm.trans htable.shape_eq
    simp only [List.cons.injEq, and_true] at hshape
    obtain ⟨rfl, rfl, rfl⟩ := hshape
    rw [h.eq_of_lt htable hlt]
    exact ⟨hlt, hword, hreserved, rfl⟩
  · rintro ⟨hlt, hword, hreserved, rfl⟩
    exact ⟨size, inputs, blocks, codes, h, hlt, hword, hreserved, rfl⟩

end TensorLogic.Table
