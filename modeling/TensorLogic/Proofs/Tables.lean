import TensorLogic.Proofs.Columns
import TensorLogic.Proofs.Constructible
import TensorLogic.Proofs.Functions

/-!
# Reading a table back

Decoding lays a list of codes out as the tensor that tabulates it. It comes down to three
conditions: the text has codes, these fill whole blocks, and a buffer can hold the result
(`decode_ok`, `decode_returns`). Nobody asks for the third before the buffer is filled, so a
base that is too large is a trap and no refusal. Over `2 ^ 32` elements even the table
without codes is too large (`decode_traps_iff`).

Between texts and tensors there are two ways round. A text that decodes is encoded exactly
if all its codes are elements of the base, to the same codes in their plainest form, and
each of its blocks is the graph of a map exactly if the codes of the block are
(`decode_canonical`). A tensor that encodes decodes to an equal one exactly if it is
square, has an element, and fits (`encode_decodes_iff`); encoding asks for none of these.
-/

namespace TensorLogic

/-- Blocks over a square: the square has to be a word, and the cells have to go into a
buffer. -/
theorem Shape.fillable_blocks_iff {n b : Nat} (hn : 0 < n) :
    Fillable [n, n, b] Bool ↔ n * n < Word.bound ∧ n * (b * n) < Nat.pow 2 63 := by
  have hcells : cells [n, n, b] = n * (b * n) := by
    simp only [cells, List.foldr_cons, List.foldr_nil, Nat.mul_one, Nat.mul_comm n b]
  constructor
  · intro h
    refine ⟨?_, ?_⟩
    · have htake := (storable_iff.mp h.storable).1 2
      simpa [cells] using htake
    · rw [← hcells, ← Nat.mul_one (cells _), ← Size.reserve_ok_iff]
      exact h.reserved
  · rintro ⟨hsquare, hbytes⟩
    have hbound : Nat.pow 2 63 < Word.bound := by decide
    have hword : n * (b * n) < Word.bound := by omega
    have hrow : b * n < Word.bound := Nat.lt_of_le_of_lt (Nat.le_mul_of_pos_left _ hn) hword
    have hblocks : b < Word.bound := Nat.lt_of_le_of_lt (Nat.le_mul_of_pos_right _ hn) hrow
    have hside : n < Word.bound := Nat.lt_of_le_of_lt (Nat.le_mul_of_pos_right _ hn) hsquare
    have hone : 1 < Word.bound := by decide
    refine ⟨storable_iff.mpr ⟨fun k => ?_, fun k => ?_⟩, ?_⟩
    · rcases k with _ | _ | _ | k
      · exact hone
      · simpa [cells] using hside
      · simpa [cells] using hsquare
      · simpa [cells, Nat.mul_comm n b] using hword
    · rcases k with _ | _ | _ | k
      · simpa [cells, Nat.mul_comm n b] using hword
      · simpa [cells, Nat.mul_comm n b] using hrow
      · simpa [cells] using hblocks
      · simpa [cells] using hone
    · rwa [hcells, Size.reserve_ok_iff, Cell.width, instCellBool, Nat.mul_one]

namespace Table

variable {size : Nat} {text : String}

/-! ## Decoding -/

/-- The cells of the tensor of a list of codes. -/
def codeCell (size : Nat) (codes : Array Nat) : Index → Except Fault Bool
  | [v, i, k] => .ok (codes[k * size + i]? == some v)
  | _ => .ok false

theorem codeCell_ok (size : Nat) (codes : Array Nat) (index : Index) :
    ∃ b, codeCell size codes index = .ok b := by
  unfold codeCell
  split
  · exact ⟨_, rfl⟩
  · exact ⟨_, rfl⟩

theorem decode_eq (hsize : 0 < size) :
    decode size text = (do
      let codes ← parse text
      if codes.size % size = 0 then
        Run.value (Tensor.generate [size, size, codes.size / size] fun index =>
          (codeCell size codes index : Except Fault Bool))
      else refuse (.raggedTable codes.size size)) := by
  rw [decode, if_neg (Nat.ne_of_gt hsize)]
  refine congrArg (parse text >>= ·) (funext fun codes => ?_)
  by_cases hmod : codes.size % size = 0
  · rw [if_neg (not_not_intro hmod), if_pos hmod]
    refine congrArg (fun cell => Run.value (Tensor.generate _ cell)) (funext fun index => ?_)
    match index with
    | [v, i, k] => rfl
    | [] | [_] | [_, _] | _ :: _ :: _ :: _ :: _ => rfl
  · rw [if_pos hmod, if_neg hmod]
    rfl

/-- What is laid out tabulates the codes. -/
theorem tabulates_of_generate {codes : Array Nat} {blocks : Nat} {t : Tensor Bool}
    (hcodes : codes.size = blocks * size)
    (h : Run.value (Tensor.generate [size, size, blocks] fun index =>
      (codeCell size codes index : Except Fault Bool)) = .ok t) :
    t.InBounds ∧ Tabulates t size size blocks codes.toList := by
  obtain ⟨hshape, hbounds, hcells⟩ :=
    Tensor.fill_spec (Tensor.generate_ok (Run.value_eq_ok.mp h))
  refine ⟨hbounds, hshape, hcodes, fun {v i k} hv hi hk => ?_⟩
  obtain ⟨b, hb, hcell⟩ := hcells [v, i, k] (mem_indices_three.mpr ⟨v, i, k, hv, hi, hk, rfl⟩)
  have hcode : b = (codes[k * size + i]? == some v) := by
    cases Run.returns_lift hcell
    rfl
  rw [hb, hcode, Array.getElem?_toList]

/-- The codes of a text that decodes fill whole blocks, and a buffer holds their tensor. -/
theorem decode_ok {t : Tensor Bool} (h : decode size text = .ok t) :
    0 < size ∧ ∃ blocks, parse text = .ok (textCodes text).toArray ∧
      (textCodes text).length = blocks * size ∧ Shape.Fillable [size, size, blocks] Bool ∧
      t.InBounds ∧ Tabulates t size size blocks (textCodes text) := by
  rcases Nat.eq_zero_or_pos size with rfl | hsize
  · cases h
  rw [decode_eq hsize] at h
  obtain ⟨codes, hparse, h⟩ := bind_eq_ok.mp h
  obtain ⟨-, -, hcodes⟩ := parse_ok_iff.mp hparse
  split at h
  next hmod =>
      have hlen : codes.size = codes.size / size * size :=
        (Nat.div_mul_cancel (Nat.dvd_of_mod_eq_zero hmod)).symm
      obtain ⟨hbounds, htable⟩ := tabulates_of_generate hlen h
      rw [← hcodes]
      exact ⟨hsize, _, hparse, hlen, Tensor.fillable_of_generate (Run.value_eq_ok.mp h),
        hbounds, htable⟩
  next => cases h

theorem decode_returns {codes : Array Nat} {blocks : Nat} (hsize : 0 < size)
    (hparse : parse text = .ok codes) (hcodes : codes.size = blocks * size)
    (hfill : Shape.Fillable [size, size, blocks] Bool) : ∃ t, decode size text = .ok t := by
  obtain ⟨t, ht⟩ := Tensor.generate_returns (s := ()) hfill fun index _ =>
    codeCell_ok size codes index
  refine ⟨t, ?_⟩
  rw [decode_eq hsize, hparse]
  show (if codes.size % size = 0 then _ else _) = _
  rw [hcodes, if_pos (Nat.mul_mod_left _ _), Nat.mul_div_cancel _ hsize]
  exact Run.value_eq_ok.mpr ht

/-- Codes that were written are decoded to the tensor that tabulates them. -/
theorem decode_written {codes : List Nat} {blocks : Nat} (hsize : 0 < size)
    (hword : ∀ c ∈ codes, c < Word.bound) (hlen : codes.length = blocks * size)
    (hfill : Shape.Fillable [size, size, blocks] Bool) :
    ∃ u, decode size (written codes) = .ok u ∧ Tabulates u size size blocks codes := by
  have hparse := parse_written hword
  obtain ⟨u, hu⟩ := decode_returns hsize hparse hlen hfill
  refine ⟨u, hu, ?_⟩
  obtain ⟨-, blocks', -, hlen', -, -, htable⟩ := decode_ok hu
  rw [textCodes_written] at hlen' htable
  obtain rfl : blocks' = blocks :=
    Nat.eq_of_mul_eq_mul_right hsize (hlen'.symm.trans hlen)
  exact htable

/-! ## When decoding traps -/

theorem parse_failsBy (text : String) : FailsBy Fault.IsRefusal (parse text) := by
  unfold parse
  split
  · exact .of_ok rfl
  · exact .throw ⟨_, rfl⟩

/-- Behind the checks only the size of the tensor is left. -/
theorem decode_failsBy {codes : Array Nat} (hsize : 0 < size) (hparse : parse text = .ok codes)
    (hdvd : size ∣ codes.size) :
    FailsBy (fun fault => ∃ cause, fault = .trapped cause) (decode size text) := by
  rw [decode_eq hsize, hparse]
  refine FailsBy.bind (.of_ok rfl) fun codes' hcodes' => ?_
  cases hcodes'
  rw [if_pos (Nat.mod_eq_zero_of_dvd hdvd)]
  refine Run.FailsBy.value (Tensor.generate_failsBy (fun _ => ⟨⟨_, rfl⟩, ⟨_, rfl⟩, ⟨_, rfl⟩⟩) ?_)
  intro index _
  obtain ⟨b, hb⟩ := codeCell_ok size codes index
  exact .lift (.of_ok hb)

/-- Decoding traps exactly if codes fill whole blocks of a tensor that is too large: the
square of the base is no word, or the cells are no buffer. Everything else that is wrong
with a base or a text is refused. -/
theorem decode_traps_iff (size : Nat) (text : String) :
    (∃ cause, decode size text = .error (.trapped cause)) ↔
      0 < size ∧ ∃ codes, parse text = .ok codes ∧ size ∣ codes.size ∧
        (Word.bound ≤ size * size ∨ Nat.pow 2 63 ≤ size * codes.size) := by
  constructor
  · rintro ⟨cause, h⟩
    rcases Nat.eq_zero_or_pos size with rfl | hsize
    · cases h
    refine ⟨hsize, ?_⟩
    cases hparse : parse text with
    | error fault =>
        obtain ⟨refusal, rfl⟩ := parse_failsBy text fault hparse
        rw [decode_eq hsize, hparse] at h
        cases h
    | ok codes =>
        -- of codes that do not fill whole blocks the refusal comes first
        by_cases hdvd : size ∣ codes.size
        · refine ⟨codes, rfl, hdvd, ?_⟩
          obtain ⟨blocks, hcodes⟩ := hdvd
          rw [Nat.mul_comm] at hcodes
          by_contra hsmall
          rw [not_or, Nat.not_le, Nat.not_le, hcodes] at hsmall
          obtain ⟨t, ht⟩ :=
            decode_returns hsize hparse hcodes ((Shape.fillable_blocks_iff hsize).mpr hsmall)
          rw [ht] at h
          cases h
        · rw [decode_eq hsize, hparse] at h
          simp only [bind, Except.bind] at h
          rw [if_neg fun hmod => hdvd (Nat.dvd_of_mod_eq_zero hmod)] at h
          cases h
  · rintro ⟨hsize, codes, hparse, hdvd, hlarge⟩
    cases hdecode : decode size text with
    | error fault =>
        obtain ⟨cause, rfl⟩ := decode_failsBy hsize hparse hdvd fault hdecode
        exact ⟨cause, rfl⟩
    | ok t =>
        obtain ⟨-, blocks, hparse', hlen, hfill, -⟩ := decode_ok hdecode
        cases hparse.symm.trans hparse'
        obtain ⟨hsquare, hbytes⟩ := (Shape.fillable_blocks_iff hsize).mp hfill
        rw [List.size_toArray, hlen] at hlarge
        omega

/-- The square of the base leaves the word before there is any code. -/
theorem decode_large_base :
    decode 4294967296 "" =
      .error (.trapped (.oversized [4294967296, 4294967296, 0])) :=
  rfl

/-! ## From tensors to texts and back -/

/-- What a tensor is written as is decoded to an equal tensor exactly if the tensor is
square, has an element, and can be laid out again. -/
theorem encode_decodes_iff {t : Tensor Bool} {s : String} (h : encode t = .ok s) :
    ∃ n m b, t.shape = [n, m, b] ∧
      ((∃ u, decode n s = .ok u ∧ u.equal t = .ok true) ↔
        m = n ∧ 0 < n ∧ n * n < Word.bound ∧ n * (b * n) < Nat.pow 2 63) := by
  obtain ⟨n, m, b, codes, htable, hlt, -, -, rfl⟩ := encode_eq_ok.mp h
  refine ⟨n, m, b, htable.shape_eq, ?_⟩
  constructor
  · -- what is decoded is square, so an equal tensor is
    rintro ⟨u, hu, hequal⟩
    obtain ⟨hn, b', -, -, hfill, -, hdecoded⟩ := decode_ok hu
    obtain ⟨hshape, -⟩ :=
      (Tensor.equal_eq_true hdecoded.readable htable.readable).mp hequal
    rw [hdecoded.shape_eq, htable.shape_eq] at hshape
    simp only [List.cons.injEq, and_true, true_and] at hshape
    obtain ⟨rfl, rfl⟩ := hshape
    exact ⟨rfl, hn, (Shape.fillable_blocks_iff hn).mp hfill⟩
  · rintro ⟨rfl, hn, hfits⟩
    have hword : ∀ c ∈ codes, c < Word.bound := fun c hc =>
      calc c < m := hlt c hc
        _ ≤ m * m := Nat.le_mul_of_pos_right m hn
        _ ≤ Word.bound := Nat.le_of_lt hfits.1
    obtain ⟨u, hu, hdecoded⟩ :=
      decode_written hn hword htable.length_eq ((Shape.fillable_blocks_iff hn).mpr hfits)
    exact ⟨u, hu, hdecoded.equal_eq htable⟩

/-- The graph of the map that swaps two elements. -/
def swap : Tensor Bool :=
  { shape := [2, 2, 1], strides := [2, 1, 1], offset := 0
    buffer := #[false, true, true, false] }

theorem encode_decodes_iff_swap :
    encode swap = .ok "1 0" ∧
      ∃ u, decode 2 "1 0" = .ok u ∧ u.equal swap = .ok true := by
  have hencode : encode swap = .ok "1 0" := rfl
  obtain ⟨n, m, b, hshape, hiff⟩ := encode_decodes_iff hencode
  obtain ⟨rfl, rfl, rfl⟩ : 2 = n ∧ 2 = m ∧ 1 = b := by simpa [swap] using hshape
  exact ⟨hencode, hiff.mpr (by decide)⟩

/-- Four columns of two values: what is written are four codes. -/
def fourColumns : Tensor Bool :=
  { shape := [2, 4, 1], strides := [4, 1, 1], offset := 0
    buffer := #[true, false, false, true, false, true, true, false] }

/-- Read over two elements, four codes are two blocks of two. -/
theorem encode_rectangular :
    encode fourColumns = .ok "0 1 1 0" ∧
      ∃ u, decode 2 "0 1 1 0" = .ok u ∧ u.shape = [2, 2, 2] ∧
        u.equal fourColumns = .ok false :=
  ⟨rfl, _, rfl, rfl, rfl⟩

/-! ## From texts to tensors and back -/

/-- A block of decoded codes is the graph of a map if its codes are elements. -/
theorem isFunction_slice {t : Tensor Bool} {codes : List Nat} {blocks k : Nat} (hsize : 0 < size)
    (ht : t.InBounds) (htable : Tabulates t size size blocks codes)
    (hfill : Shape.Fillable [size, size, blocks] Bool) (hk : k < blocks) :
    ∃ b, (Relation.isFunction truthValues (t.slice k)).value = .ok b ∧
      (b = true ↔ ∀ i < size, ∃ c, codes[k * size + i]? = some c ∧ c < size) := by
  have hsplit : t.shape = [size, size] ++ [blocks] := htable.shape_eq
  obtain ⟨hshape, hbounds, hget⟩ := Tensor.slice_cells ht hsplit hk
  have hblocks : Shape.Fillable ([size, size] ++ [blocks]) Bool := hfill
  have hsquare : Shape.Fillable ([size] ++ [size]) Bool := hblocks.init (Nat.zero_lt_of_lt hk)
  have hrow : Shape.Fillable [size] Bool := hsquare.init hsize
  have hblock : Shape.Blockable [size] Bool := by
    refine .of_mul_lt (n := size) ?_ fun hsmall => ?_
    · simpa [Shape.cells, Cell.width] using Size.reserve_ok_iff.mp hsquare.reserved
    · simp only [Shape.cells, List.foldr_cons, List.foldr_nil, Nat.mul_one]
      omega
  obtain ⟨b, hb⟩ := Relation.isFunction_returns hshape (by simp)
    hbounds.readable hsquare hblock hrow hblock
  refine ⟨b, hb, (Relation.isFunction_iff hshape (by simp) hb).trans ?_⟩
  have hcell : ∀ v i, v < size → i < size →
      ((t.slice k).get [v, i] = .ok true ↔ codes[k * size + i]? = some v) := by
    intro v i hv hi
    have hindex : [v, i] ∈ Shape.indices [size, size] := by
      simp [Shape.cons_mem_indices, Shape.mem_indices_nil, hv, hi]
    rw [hget _ hindex]
    show t.get [v, i, k] = .ok true ↔ _
    rw [htable.get_eq hv hi hk]
    simp
  constructor
  · intro hgraph i hi
    obtain ⟨v, ⟨hv, hholds⟩, -⟩ := hgraph [i] (by simp [Shape.cons_mem_indices,
      Shape.mem_indices_nil, hi])
    exact ⟨v, (hcell v i hv hi).mp hholds, hv⟩
  · intro hcodes index hindex
    obtain ⟨i, hi, behind, hbehind, rfl⟩ := Shape.mem_indices_cons.mp hindex
    rw [Shape.mem_indices_nil.mp hbehind]
    obtain ⟨c, hc, hlt⟩ := hcodes i hi
    refine ⟨c, ⟨hlt, (hcell c i hlt hi).mpr hc⟩, fun v hv => ?_⟩
    have hv' := (hcell v i hv.1 hi).mp hv.2
    rw [hc] at hv'
    exact (Option.some.inj hv').symm

/-- Text and views fit buffers of their own. From 24 elements on they are smaller than the
cells, with fewer they are asked for by the number of codes. -/
theorem reserve_of_fillable {blocks : Nat} (hsize : 0 < size)
    (hfill : Shape.Fillable [size, size, blocks] Bool)
    (hsmall : size < 24 → Size.reserve (blocks * size) Tensor.viewWidth = .ok ()) :
    Size.reserve (size * blocks) (Cell.width String) = .ok () ∧
      Size.reserve blocks Tensor.viewWidth = .ok () := by
  obtain ⟨-, hbytes⟩ := (Shape.fillable_blocks_iff hsize).mp hfill
  have hblocks : blocks ≤ blocks * size := Nat.le_mul_of_pos_right _ hsize
  simp only [Size.reserve_ok_iff, Nat.mul_comm size blocks] at hsmall ⊢
  simp only [Cell.width, Tensor.viewWidth] at hsmall ⊢
  rcases Nat.lt_or_ge size 24 with hlt | hge
  · have := hsmall hlt
    omega
  · have hcodes : 24 * (blocks * size) ≤ size * (blocks * size) := Nat.mul_le_mul_right _ hge
    have hviews : blocks * 24 ≤ blocks * size := Nat.mul_le_mul_left _ hge
    omega

/-- The tensor of a text that decodes has the codes of the text in its cells. It encodes
exactly if all codes are elements of the base, then to these codes in their plainest form,
which decode to an equal tensor again; and a block of it is the graph of a map exactly if
all codes of the block are elements.

The text and the views need buffers of their own. From 24 elements on these are smaller than
the one for the cells, so there is nothing to assume; with fewer they take no more than 72
bytes for each character of the text, and that these can be had is a condition on the memory
and not on the text (`hmemory`): it leaves out texts of more than `10 ^ 17` characters. -/
theorem decode_canonical {t : Tensor Bool} (h : decode size text = .ok t)
    (hmemory : size < 24 → Size.reserve text.length Tensor.viewWidth = .ok ()) :
    ∃ blocks, t.shape = [size, size, blocks] ∧
      (textCodes text).length = blocks * size ∧
      (∀ v i k, v < size → i < size → k < blocks →
        t.get [v, i, k] = .ok (decide ((textCodes text)[k * size + i]? = some v))) ∧
      ((∃ s, encode t = .ok s) ↔ ∀ c ∈ textCodes text, c < size) ∧
      (∀ s, encode t = .ok s → s = written (textCodes text) ∧
        ∃ u, decode size s = .ok u ∧ u.equal t = .ok true) ∧
      ∃ parts, t.unconcat = .ok parts ∧ parts.length = blocks ∧
        ∀ k < blocks, ∃ part b, parts[k]? = some part ∧
          (Relation.isFunction truthValues part).value = .ok b ∧
          (b = true ↔ ∀ i < size, ∃ c, (textCodes text)[k * size + i]? = some c ∧ c < size) := by
  obtain ⟨hsize, blocks, hparse, hlen, hfill, hbounds, htable⟩ := decode_ok h
  obtain ⟨-, hword, -⟩ := parse_ok_iff.mp hparse
  obtain ⟨htext, hviews⟩ := reserve_of_fillable hsize hfill fun hlt => by
    have hle := length_textCodes_le text
    have hreserved := Size.reserve_ok_iff.mp (hmemory hlt)
    rw [hlen] at hle
    exact Size.reserve_ok_iff.mpr
      (Nat.lt_of_le_of_lt (Nat.mul_le_mul_right _ hle) hreserved)
  refine ⟨blocks, htable.shape_eq, hlen, ?_, ?_, ?_, (List.range blocks).map t.slice, ?_, ?_, ?_⟩
  · intro v i k hv hi hk
    rw [htable.get_eq hv hi hk, beq_eq_decide]
  · constructor
    · rintro ⟨s, hs⟩
      exact (htable.encode_eq_ok.mp hs).1
    · intro hlt
      have hbytes := Size.reserve_ok_iff.mp htext
      have hbound : Nat.pow 2 63 < Word.bound := by decide
      simp only [Cell.width] at hbytes
      exact ⟨_, htable.encode_eq_ok.mpr ⟨hlt, by omega, htext, rfl⟩⟩
  · intro s hs
    obtain ⟨-, -, -, rfl⟩ := htable.encode_eq_ok.mp hs
    obtain ⟨u, hu, hdecoded⟩ := decode_written hsize hword hlen hfill
    exact ⟨rfl, u, hu, hdecoded.equal_eq htable⟩
  · rw [Tensor.unconcat_eq hbounds, htable.shape_eq]
    show (Size.reserve blocks Tensor.viewWidth >>= _) = _
    rw [hviews]
    rfl
  · rw [List.length_map, List.length_range]
  · intro k hk
    obtain ⟨b, hb, hiff⟩ := isFunction_slice hsize hbounds htable hfill hk
    refine ⟨t.slice k, b, ?_, hb, hiff⟩
    rw [List.getElem?_map, List.getElem?_range hk]
    rfl

theorem decode_canonical_swap :
    ∃ t, decode 2 " 01  00 0 7" = .ok t ∧ (¬ ∃ s, encode t = .ok s) ∧
      ∃ u, decode 2 " 01  00 " = .ok u ∧ encode u = .ok "1 0" := by
  have hdecode : ∃ t, decode 2 " 01  00 0 7" = .ok t := ⟨_, rfl⟩
  have hswap : ∃ u, decode 2 " 01  00 " = .ok u := ⟨_, rfl⟩
  obtain ⟨t, ht⟩ := hdecode
  obtain ⟨u, hu⟩ := hswap
  obtain ⟨-, -, -, -, hiff, -⟩ := decode_canonical ht fun _ => rfl
  obtain ⟨-, -, -, -, hiffSwap, htext, -⟩ := decode_canonical hu fun _ => rfl
  refine ⟨t, ht, fun h => absurd (hiff.mp h) (by decide), u, hu, ?_⟩
  obtain ⟨s, hs⟩ := hiffSwap.mpr (by decide)
  obtain ⟨rfl, -⟩ := htext s hs
  exact hs

end Table

end TensorLogic
