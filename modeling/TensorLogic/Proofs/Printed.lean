import TensorLogic.Proofs.Cursor
import TensorLogic.Proofs.Limits

/-!
# Printed forms tell tensors apart

Two tensors of one shape are printed into texts of one length, with each cell at the same
place in both. So nothing has to be parsed to get the cells back: where the texts agree,
they agree place by place.

The argument follows the printer as it appends to what it has written so far. `Tells P f g`
says that two writers, continuing texts of one length, end on texts of one length, and that
these are the same exactly if the texts before were and `P` holds. Fixed text tells nothing,
a cell tells that the two cells are the same, and writers that follow each other tell what
both of them do; a separator that depends on whether anything was written yet depends on the
length only. A tensor then tells its cells at every index, and a solution those of all its
tensors (`printed_determines`).
-/

namespace TensorLogic

theorem Shape.forall_mem_indices_append {front back : Shape} {P : Index → Prop} :
    (∀ index ∈ indices (front ++ back), P index) ↔
      ∀ i ∈ front.indices, ∀ j ∈ back.indices, P (i ++ j) := by
  rw [indices_append]
  simp only [List.forall_mem_flatMap, List.forall_mem_map]

theorem appended_eq_iff {a b s s' : String} (h : a.length = b.length) :
    a ++ s = b ++ s' ↔ a = b ∧ s = s' := by
  rw [← String.toList_inj, String.toList_append, String.toList_append]
  constructor
  · intro happend
    have hlen : a.toList.length = b.toList.length := by
      rw [String.length_toList, String.length_toList, h]
    obtain ⟨hfront, hback⟩ := List.append_inj happend hlen
    exact ⟨String.toList_inj.mp hfront, String.toList_inj.mp hback⟩
  · rintro ⟨rfl, rfl⟩
    rfl

/-- What is written next depends on the length of the text so far only. -/
def Uniform (w : String → String) : Prop :=
  ∀ a b, a.length = b.length → (w a).length = (w b).length ∧ (w a = w b ↔ a = b)

theorem Uniform.append (s : String) : Uniform (· ++ s) := by
  intro a b hlen
  refine ⟨by simp [hlen], ?_⟩
  rw [appended_eq_iff hlen, and_iff_left rfl]

theorem Uniform.separate (s : String) : Uniform fun a => if a.isEmpty then a else a ++ s := by
  intro a b hlen
  have hempty : a.isEmpty = b.isEmpty := by
    rw [Bool.eq_iff_iff, String.isEmpty_iff, String.isEmpty_iff, ← String.length_eq_zero_iff,
      ← String.length_eq_zero_iff, hlen]
  simp only [hempty]
  split
  · exact ⟨hlen, Iff.rfl⟩
  · exact Uniform.append s a b hlen

theorem Uniform.comp {w v : String → String} (hw : Uniform w) (hv : Uniform v) :
    Uniform fun a => v (w a) := by
  intro a b hlen
  obtain ⟨hlen, hsame⟩ := hw a b hlen
  obtain ⟨hlen', hsame'⟩ := hv _ _ hlen
  exact ⟨hlen', hsame'.trans hsame⟩

/-- Continuing texts of one length, the writers end on texts of one length, which are the
same exactly if the texts before were and `P` holds. -/
def Tells (P : Prop) (f g : String → Except Fault String) : Prop :=
  ∀ a b a' b', a.length = b.length → f a = .ok a' → g b = .ok b' →
    a'.length = b'.length ∧ (a' = b' ↔ a = b ∧ P)

namespace Tells

variable {P Q : Prop} {f g f' g' : String → Except Fault String}

theorem congr (h : Tells P f g) (hiff : P ↔ Q) : Tells Q f g := by
  rwa [← propext hiff]

theorem fixed {w : String → String} (hw : Uniform w) :
    Tells True (fun a => .ok (w a)) fun b => .ok (w b) := by
  intro a b a' b' hlen ha hb
  cases ha
  cases hb
  rw [and_true]
  exact hw a b hlen

theorem bind (h : Tells P f g) (h' : Tells Q f' g') :
    Tells (P ∧ Q) (fun a => f a >>= f') fun b => g b >>= g' := by
  intro a b a' b' hlen ha hb
  obtain ⟨a₁, hf, hf'⟩ := bind_eq_ok.mp ha
  obtain ⟨b₁, hg, hg'⟩ := bind_eq_ok.mp hb
  obtain ⟨hlen, hfirst⟩ := h a b a₁ b₁ hlen hf hg
  obtain ⟨hlen, hsecond⟩ := h' a₁ b₁ a' b' hlen hf' hg'
  refine ⟨hlen, ?_⟩
  rw [hsecond, hfirst, and_assoc]

/-- Fixed text in front tells nothing. -/
theorem after {w : String → String} (hw : Uniform w) (h : Tells P f g) :
    Tells P (fun a => f (w a)) fun b => g (w b) := by
  intro a b a' b' hlen ha hb
  obtain ⟨hlen, hsame⟩ := hw a b hlen
  rw [← hsame]
  exact h _ _ a' b' hlen ha hb

/-- Fixed text behind tells nothing. -/
theorem before {w : String → String} (h : Tells P f g) (hw : Uniform w) :
    Tells P (fun a => f a >>= fun s => .ok (w s)) (fun b => g b >>= fun s => .ok (w s)) :=
  (h.bind (fixed hw)).congr (and_iff_left trivial)

theorem foldlM {ι κ : Type} {R : ι → κ → Prop} {step : String → ι → Except Fault String}
    {step' : String → κ → Except Fault String} {l : List ι} {l' : List κ}
    (h : List.Forall₂ (fun i j => Tells (R i j) (step · i) (step' · j)) l l') :
    Tells (List.Forall₂ R l l') (l.foldlM step) (l'.foldlM step') := by
  induction h with
  | nil => exact (fixed fun _ _ hlen => ⟨hlen, Iff.rfl⟩).congr (iff_of_true trivial .nil)
  | cons hij _ ih =>
      simp only [List.foldlM_cons]
      exact (hij.bind ih).congr List.forall₂_cons.symm

/-- Writers that go through the same list. -/
theorem foldlM_same {ι : Type} {R : ι → Prop} {step step' : String → ι → Except Fault String}
    {l : List ι} (h : ∀ i ∈ l, Tells (R i) (step · i) (step' · i)) :
    Tells (∀ i ∈ l, R i) (l.foldlM step) (l.foldlM step') :=
  (foldlM (R := fun i _ => R i) (List.forall₂_same.mpr h)).congr List.forall₂_same

theorem countUp {R : Nat → Prop} {step step' : Nat → String → Except Fault String}
    (h : ∀ i, Tells (R i) (step i) (step' i)) (count : Nat) :
    Tells (∀ i < count, R i) (Shape.countUp step count 0) (Shape.countUp step' count 0) := by
  intro a b a' b' hlen ha hb
  rw [Shape.countUp_eq, ← List.range_eq_range'] at ha hb
  have hwhole : Tells (∀ i ∈ List.range count, R i) _ _ := foldlM_same fun i _ => h i
  simp only [List.mem_range] at hwhole
  exact hwhole a b a' b' hlen ha hb

theorem foldIndices {R : Index → Prop} {step step' : String → Index → Except Fault String}
    (h : ∀ index, Tells (R index) (step · index) (step' · index)) (shape : Shape) :
    Tells (∀ index ∈ shape.indices, R index) (shape.foldIndices step)
      (shape.foldIndices step') := by
  intro a b a' b' hlen ha hb
  rw [Shape.foldIndices_eq] at ha hb
  exact foldlM_same (fun index _ => h index) a b a' b' hlen ha hb

end Tells

/-! ## Tensors -/

namespace Tensor

variable {t u : Tensor Bool}

/-- Both tensors can be read at the index, and have one cell there. -/
def SameCell (t u : Tensor Bool) (index : Index) : Prop :=
  ∃ cell, t.get index = .ok cell ∧ u.get index = .ok cell

theorem bit_injective {x y : Bool} (h : bit x = bit y) : x = y := by
  cases x <;> cases y <;> first | rfl | cases h

theorem cell_tells (t u : Tensor Bool) (index : Index) :
    Tells (t.SameCell u index)
      (fun acc => t.get index >>= fun cell => .ok (acc.push (bit cell)))
      (fun acc => u.get index >>= fun cell => .ok (acc.push (bit cell))) := by
  intro a b a' b' hlen ha hb
  obtain ⟨x, hx, ha⟩ := bind_eq_ok.mp ha
  obtain ⟨y, hy, hb⟩ := bind_eq_ok.mp hb
  cases ha
  cases hb
  have hsame : t.SameCell u index ↔ bit x = bit y := by
    constructor
    · rintro ⟨cell, ht, hu⟩
      obtain rfl : x = cell := Except.ok.inj (hx.symm.trans ht)
      obtain rfl : y = x := Except.ok.inj (hy.symm.trans hu)
      rfl
    · intro hbit
      obtain rfl := bit_injective hbit
      exact ⟨x, hx, hy⟩
  refine ⟨by rw [String.length_push, String.length_push, hlen], ?_⟩
  rw [String.push_inj, hsame]

theorem lineText_tells (t u : Tensor Bool) (lead : Index) (length : Nat) :
    Tells (∀ i < length, t.SameCell u (lead ++ [i])) (t.lineText lead length)
      (u.lineText lead length) :=
  (Tells.countUp (fun i => cell_tells t u (lead ++ [i])) length).before
    fun a b hlen => ⟨by rw [String.length_push, String.length_push, hlen],
      by rw [String.push_inj, and_iff_left rfl]⟩

theorem matrixText_tells (t u : Tensor Bool) (lead : Index) (rows columns : Nat) :
    Tells (∀ index ∈ Shape.indices [rows, columns], t.SameCell u (lead ++ index))
      (t.matrixText lead rows columns) (u.matrixText lead rows columns) := by
  have hrows := Tells.countUp (fun row => lineText_tells t u (lead ++ [row]) columns) rows
  refine hrows.congr ?_
  simp only [Shape.forall_mem_indices_cons, Shape.forall_mem_indices_nil, List.append_assoc]
  rfl

/-- The matrix below `lead`, under its heading. -/
def sectionText (t : Tensor Bool) (rows columns : Nat) (acc : String) (lead : Index) :
    Except Fault String :=
  t.matrixText lead rows columns
    ((if acc.isEmpty then acc else acc ++ "\n") ++ Shape.text lead ++ ":\n")

theorem sectionText_tells (t u : Tensor Bool) (rows columns : Nat) (lead : Index) :
    Tells (∀ index ∈ Shape.indices [rows, columns], t.SameCell u (lead ++ index))
      (t.sectionText rows columns · lead) (u.sectionText rows columns · lead) := by
  have hlead := (Uniform.separate "\n").comp (.append (Shape.text lead))
  have hheading := hlead.comp (.append ":\n")
  exact (matrixText_tells t u lead rows columns).after hheading

/-- The text of a tensor tells the cells at all its indices. -/
theorem text_tells (h : t.shape = u.shape) :
    ∃ f g, t.text = f "" ∧ u.text = g "" ∧
      Tells (∀ index ∈ t.shape.indices, t.SameCell u index) f g := by
  obtain ⟨reversed, hreversed⟩ : ∃ reversed, t.shape.reverse = reversed := ⟨_, rfl⟩
  have hshape : t.shape = reversed.reverse := by rw [← hreversed, List.reverse_reverse]
  -- the printer tells the ranks apart from the last axis on
  rw [text, text, ← h, hreversed, hshape]
  match reversed with
  | [] =>
      refine ⟨_, _, ?_, ?_,
        ((cell_tells t u []).before (.append "\n")).congr Shape.forall_mem_indices_nil.symm⟩
      · cases t.get [] <;> rfl
      · cases u.get [] <;> rfl
  | [length] =>
      refine ⟨_, _, rfl, rfl, (lineText_tells t u [] length).congr ?_⟩
      simp [Shape.forall_mem_indices_cons, Shape.forall_mem_indices_nil]
  | [columns, rows] =>
      exact ⟨_, _, rfl, rfl, matrixText_tells t u [] rows columns⟩
  | columns :: rows :: n :: lead =>
      have hfront : (columns :: rows :: n :: lead).reverse =
          (n :: lead).reverse ++ [rows, columns] := by simp
      have hsections := Tells.foldIndices (sectionText_tells t u rows columns)
        (n :: lead).reverse
      refine ⟨_, _, rfl, rfl, hsections.congr ?_⟩
      rw [hfront, Shape.forall_mem_indices_append]

/-! A printer stops only at a cell that cannot be read. -/

theorem foldlM_returns {ι : Type} {step : String → ι → Except Fault String} {l : List ι}
    (h : ∀ i ∈ l, ∀ a, ∃ a', step a i = .ok a') (a : String) :
    ∃ a', l.foldlM step a = .ok a' := by
  induction l generalizing a with
  | nil => exact ⟨a, rfl⟩
  | cons i l ih =>
      obtain ⟨hi, hl⟩ := List.forall_mem_cons.mp h
      obtain ⟨b, hb⟩ := hi a
      obtain ⟨a', ha'⟩ := ih hl b
      rw [List.foldlM_cons]
      exact ⟨a', bind_eq_ok.mpr ⟨b, hb, ha'⟩⟩

theorem lineText_returns {lead : Index} {length : Nat}
    (h : ∀ i < length, ∃ cell, t.get (lead ++ [i]) = .ok cell) (a : String) :
    ∃ a', t.lineText lead length a = .ok a' := by
  have hcell : ∀ i ∈ List.range length, ∀ acc : String, ∃ acc',
      (t.get (lead ++ [i]) >>= fun cell => .ok (acc.push (bit cell))) = .ok acc' := by
    intro i hi acc
    obtain ⟨cell, hcell⟩ := h i (List.mem_range.mp hi)
    exact ⟨_, bind_eq_ok.mpr ⟨cell, hcell, rfl⟩⟩
  obtain ⟨line, hline⟩ := foldlM_returns hcell a
  rw [lineText, Shape.countUp_eq, ← List.range_eq_range']
  exact ⟨_, bind_eq_ok.mpr ⟨line, hline, rfl⟩⟩

theorem matrixText_returns {lead : Index} {rows columns : Nat}
    (h : ∀ index ∈ Shape.indices [rows, columns], ∃ cell, t.get (lead ++ index) = .ok cell)
    (a : String) : ∃ a', t.matrixText lead rows columns a = .ok a' := by
  rw [matrixText, Shape.countUp_eq, ← List.range_eq_range']
  refine foldlM_returns (fun row hrow => lineText_returns fun column hcolumn => ?_) a
  rw [List.append_assoc]
  exact h _ (Shape.pair_mem_indices (List.mem_range.mp hrow) hcolumn)

theorem text_returns (h : t.Readable) : ∃ s, t.text = .ok s := by
  have hshape : t.shape = t.shape.reverse.reverse := (List.reverse_reverse _).symm
  rw [Readable, hshape] at h
  rw [text]
  generalize t.shape.reverse = reversed at h
  match reversed with
  | [] =>
      obtain ⟨cell, hcell⟩ := Shape.forall_mem_indices_nil.mp h
      exact ⟨_, bind_eq_ok.mpr ⟨cell, hcell, rfl⟩⟩
  | [length] =>
      refine lineText_returns (fun i hi => ?_) ""
      exact h [i] (Shape.cons_mem_indices.mpr ⟨hi, Shape.mem_indices_nil.mpr rfl⟩)
  | [columns, rows] =>
      have hcells : ∀ index ∈ Shape.indices [rows, columns],
          ∃ cell, t.get ([] ++ index) = .ok cell := h
      exact matrixText_returns hcells ""
  | columns :: rows :: n :: lead =>
      have hfront : (columns :: rows :: n :: lead).reverse =
          (n :: lead).reverse ++ [rows, columns] := by simp
      rw [hfront, Shape.forall_mem_indices_append] at h
      show ∃ s, Shape.foldIndices (n :: lead).reverse (t.sectionText rows columns) "" = .ok s
      rw [Shape.foldIndices_eq]
      exact foldlM_returns (fun index hindex acc => matrixText_returns (h index hindex) _) ""

/-- Printed forms of tensors of one shape have one length, and are the same exactly if the
tensors have one cell at each index. -/
theorem text_same (h : t.shape = u.shape) {s s' : String} (ht : t.text = .ok s)
    (hu : u.text = .ok s') :
    s.length = s'.length ∧ (s = s' ↔ ∀ index ∈ t.shape.indices, t.SameCell u index) := by
  obtain ⟨f, g, hf, hg, htells⟩ := text_tells h
  obtain ⟨hlen, hsame⟩ := htells "" "" s s' rfl (hf ▸ ht) (hg ▸ hu)
  rw [hsame]
  exact ⟨hlen, and_iff_right rfl⟩

/-- A tensor is printed exactly if each of its cells can be read. -/
theorem text_ok_iff : (∃ s, t.text = .ok s) ↔ t.Readable := by
  constructor
  · -- a text is the same as itself, so it tells that each cell is the same as itself
    rintro ⟨s, hs⟩ index hindex
    obtain ⟨cell, hcell, -⟩ := (text_same rfl hs hs).2.mp rfl index hindex
    exact ⟨cell, hcell⟩
  · exact text_returns

theorem equal_iff_sameCell (h : t.shape = u.shape) :
    equal t u = .ok true ↔ ∀ index ∈ t.shape.indices, t.SameCell u index := by
  rw [equal_eq_true_iff, and_iff_right h]
  refine forall₂_congr fun index _ => ⟨?_, ?_⟩
  · rintro ⟨x, y, hx, hy, hxy⟩
    obtain rfl := eq_of_beq hxy
    exact ⟨x, hx, hy⟩
  · rintro ⟨cell, hx, hy⟩
    exact ⟨cell, cell, hx, hy, BEq.rfl⟩

theorem text_eq_iff_equal (h : t.shape = u.shape) {s s' : String} (ht : t.text = .ok s)
    (hu : u.text = .ok s') : s = s' ↔ equal t u = .ok true := by
  rw [(text_same h ht hu).2, equal_iff_sameCell h]

/-- Comparing tensors of one shape is comparing their texts. -/
theorem equal_eq_text (h : t.shape = u.shape) (ht : t.Readable) (hu : u.Readable) :
    ∃ s s', t.text = .ok s ∧ u.text = .ok s' ∧ equal t u = .ok (decide (s = s')) := by
  obtain ⟨s, hs⟩ := text_returns ht
  obtain ⟨s', hs'⟩ := text_returns hu
  obtain ⟨answer, hanswer⟩ := equal_ok ht hu
  have hiff := text_eq_iff_equal h hs hs'
  rw [hanswer, Except.ok.injEq] at hiff
  refine ⟨s, s', hs, hs', ?_⟩
  rw [hanswer, Except.ok.injEq, Bool.eq_iff_iff, decide_eq_true_iff, hiff]

end Tensor

/-! ## Solutions -/

namespace Bindings

/-- The line above the tensor of a variable, below what is written so far. -/
def heading (name : String) (shape : Shape) (acc : String) : String :=
  (if acc.isEmpty then acc else acc ++ "\n") ++ name ++ " " ++ Shape.text shape ++ "\n"

theorem heading_uniform (name : String) (shape : Shape) : Uniform (heading name shape) := by
  have hname := (Uniform.separate "\n").comp (.append name)
  have hshape := (hname.comp (.append " ")).comp (.append (Shape.text shape))
  -- put together before it meets `heading`, which does not say where its pieces end
  have hline := hshape.comp (.append "\n")
  exact hline

/-- One variable of a solution. -/
def entryText (acc : String) (entry : String × Tensor Bool) : Except Fault String := do
  let body ← entry.2.text
  pure (heading entry.1 entry.2.shape acc ++ body)

theorem text_eq (b : Solution) : b.text = b.entries.foldlM entryText "" :=
  rfl

theorem entryText_tells {entry other : String × Tensor Bool} (hname : entry.1 = other.1)
    (hshape : entry.2.shape = other.2.shape) :
    Tells (Tensor.equal entry.2 other.2 = .ok true) (entryText · entry)
      (entryText · other) := by
  intro a b a' b' hlen ha hb
  obtain ⟨body, hbody, ha⟩ := bind_eq_ok.mp ha
  obtain ⟨body', hbody', hb⟩ := bind_eq_ok.mp hb
  cases ha
  cases hb
  obtain ⟨hbodies, -⟩ := Tensor.text_same hshape hbody hbody'
  obtain ⟨hlen, hfront⟩ := heading_uniform entry.1 entry.2.shape a b hlen
  rw [← hname, ← hshape, appended_eq_iff hlen, hfront,
    Tensor.text_eq_iff_equal hshape hbody hbody']
  exact ⟨by rw [String.length_append, String.length_append, hlen, hbodies], Iff.rfl⟩

/-- What the texts of two solutions tell that bind the same names to the same shapes. -/
theorem text_same {x y : Solution} (h : x.Paired (fun t u => t.shape = u.shape) y)
    {s s' : String} (hx : x.text = .ok s) (hy : y.text = .ok s') :
    s = s' ↔ List.Forall₂ (fun e e' => Tensor.equal e.2 e'.2 = .ok true)
      x.entries y.entries := by
  have hentries : List.Forall₂ (fun e e' => Tells (Tensor.equal e.2 e'.2 = .ok true)
      (entryText · e) (entryText · e')) x.entries y.entries :=
    List.Forall₂.imp (fun _ _ hee' => entryText_tells hee'.1 hee'.2) h
  rw [text_eq] at hx hy
  obtain ⟨-, hsame⟩ := Tells.foldlM hentries "" "" s s' rfl hx hy
  rw [hsame]
  exact and_iff_right rfl

/-- A solution is printed exactly if all cells of its tensors can be read. -/
theorem text_ok_iff {b : Solution} :
    (∃ s, b.text = .ok s) ↔ ∀ entry ∈ b.entries, entry.2.Readable := by
  constructor
  · rintro ⟨s, hs⟩ entry hentry
    have hself : b.Paired (fun t u => t.shape = u.shape) b :=
      List.forall₂_same.mpr fun _ _ => ⟨rfl, rfl⟩
    have hequal := List.forall₂_same.mp ((text_same hself hs hs).mp rfl) entry hentry
    obtain ⟨-, hcells⟩ := Tensor.equal_eq_true_iff.mp hequal
    intro index hindex
    obtain ⟨cell, -, hcell, -⟩ := hcells index hindex
    exact ⟨cell, hcell⟩
  · intro h
    rw [text_eq]
    refine Tensor.foldlM_returns (fun entry hentry acc => ?_) ""
    obtain ⟨body, hbody⟩ := Tensor.text_returns (h entry hentry)
    exact ⟨_, bind_eq_ok.mpr ⟨body, hbody, rfl⟩⟩

theorem entriesEqual_iff {l l' : List (String × Tensor Bool)}
    (h : List.Forall₂ (fun e e' => e.1 = e'.1 ∧ e.2.Readable ∧ e'.2.Readable) l l') :
    ∃ answer, entriesEqual l l' = .ok answer ∧
      (answer = true ↔ List.Forall₂ (fun e e' => Tensor.equal e.2 e'.2 = .ok true) l l') := by
  induction h with
  | nil => exact ⟨true, rfl, iff_of_true rfl .nil⟩
  | @cons e e' l l' hee' _ ih =>
      obtain ⟨hname, hread, hread'⟩ := hee'
      obtain ⟨answer, hanswer, hrest⟩ := ih
      obtain ⟨same, hsame⟩ := Tensor.equal_ok hread hread'
      rw [entriesEqual, if_neg (not_not_intro hname), hsame, List.forall₂_cons, ← hrest, hsame]
      show ∃ result, (if same then entriesEqual l l' else .ok false) = .ok result ∧ _
      cases same with
      | true => exact ⟨answer, hanswer, by simp⟩
      | false => exact ⟨false, rfl, by simp⟩

/-- Both bind the same names, to tensors of the same shapes that can be read. -/
def Comparable (x y : Solution) : Prop :=
  x.Paired (fun t u => t.shape = u.shape ∧ t.Readable ∧ u.Readable) y

/-- Comparing solutions that bind the same names to the same shapes is comparing their
texts. -/
theorem equal_eq_text {x y : Solution} (h : Comparable x y) :
    ∃ s s', x.text = .ok s ∧ y.text = .ok s' ∧ Bindings.equal x y = .ok (decide (s = s')) := by
  obtain ⟨hleft, hright⟩ := exists_of_forall₂ h
  obtain ⟨s, hs⟩ := text_ok_iff.mpr fun entry hentry => by
    obtain ⟨_, -, -, -, hread, -⟩ := hleft entry hentry
    exact hread
  obtain ⟨s', hs'⟩ := text_ok_iff.mpr fun entry hentry => by
    obtain ⟨_, -, -, -, -, hread⟩ := hright entry hentry
    exact hread
  have hshapes : x.Paired (fun t u => t.shape = u.shape) y :=
    List.Forall₂.imp (fun _ _ hee' => ⟨hee'.1, hee'.2.1⟩) h
  obtain ⟨answer, hanswer, hiff⟩ :=
    entriesEqual_iff (List.Forall₂.imp (fun _ _ hee' => ⟨hee'.1, hee'.2.2⟩) h)
  have hsize : x.size = y.size := List.Forall₂.length_eq h
  refine ⟨s, s', hs, hs', ?_⟩
  rw [equal, if_pos hsize, hanswer, Except.ok.injEq, Bool.eq_iff_iff, hiff,
    decide_eq_true_iff, text_same hshapes hs hs']

end Bindings

/-! ## The models of a problem -/

namespace Problem

/-- Where a check answers, the tensors are those declared, name by name. -/
theorem paired_of_check {p : Problem} {b : Solution} {answer : Bool}
    (h : p.check b = .ok answer) (hread : ∀ entry ∈ b.entries, entry.2.Readable) :
    p.shapes.Paired (fun shape t => t.shape = shape ∧ t.Readable) b := by
  obtain ⟨hdeclared, -⟩ := check_ok h
  obtain ⟨_, hshapes, -⟩ := bind_eq_ok.mp h
  have hentries : p.shapes.entries = (b.map Tensor.shape).entries := by
    refine NameMap.entries_eq_of_find? fun name shape => ?_
    rw [NameMap.find?_map, Option.map_eq_some_iff]
    constructor
    · intro hfind
      exact hdeclared _ (NameMap.mem_of_find? hfind)
    · rintro ⟨t, hfind, rfl⟩
      exact shape_of_checkShapes hshapes (NameMap.mem_of_find? hfind)
  rw [NameMap.Paired, hentries, NameMap.map, List.forall₂_map_left_iff, List.forall₂_same]
  exact fun entry hentry => ⟨rfl, rfl, hread entry hentry⟩

/-- Whatever a session hands out, the literals have the declared shapes. -/
theorem paired_of_compile {σ : Type} [Session σ] {p : Problem} {literals : Bindings Literal}
    {s s' : σ} (h : p.compile s = .ok literals s') :
    p.shapes.Paired (fun shape t => t.shape = shape) literals := by
  obtain ⟨_, s₀, -, h⟩ := Run.bind_eq_ok.mp h
  obtain ⟨declared, s₁, hallocate, h⟩ := Run.bind_eq_ok.mp h
  obtain ⟨_, _, -, h⟩ := Run.bind_eq_ok.mp h
  obtain ⟨_, _, -, h⟩ := Run.bind_eq_ok.mp h
  cases h
  refine (Run.mapM_ok (NameMap.mapM_run hallocate)).imp fun declaration entry hentry => ?_
  obtain ⟨_, _, hentry⟩ := hentry
  obtain ⟨t, _, ht, hentry⟩ := Run.bind_eq_ok.mp hentry
  cases hentry
  exact ⟨rfl, (Tensor.fill_spec (Tensor.generate_ok ht)).1⟩

end Problem

theorem decode_paired {literals : Bindings Literal} {a : Assignment} {b : Solution}
    (h : decode literals a = .ok b) :
    literals.Paired (fun t u => u.shape = t.shape ∧ u.Readable) b := by
  refine (NameMap.of_mapM h).imp fun e e' hee' => ⟨hee'.1, ?_⟩
  obtain ⟨hshape, hbounds, -⟩ := Tensor.fill_spec (Tensor.map_ok (Run.value_eq_ok.mp hee'.2))
  exact ⟨hshape, hbounds.readable⟩

/-- The solutions that a run of calls delivers are read off at the literals of its start. -/
theorem Models.calls_decoded {σ : Type} [Session σ] {m m' : Models} {s s' : σ} {n : Nat}
    {steps : List Step} (h : m.calls n s = .ok (steps, m') s') :
    ∀ b ∈ solutions steps, ∃ a, decode m.literals a = .ok b := by
  induction n generalizing m s steps with
  | zero =>
      cases h
      intro b hb
      cases hb
  | succ n ih =>
      obtain ⟨⟨step, m₁⟩, s₁, hnext, h⟩ := Run.bind_eq_ok.mp h
      obtain ⟨⟨rest, m₂⟩, s₂, hrest, h⟩ := Run.bind_eq_ok.mp h
      cases h
      obtain ⟨hliterals, hstep⟩ := next_ok hnext
      have hlater := ih hrest
      rw [hliterals] at hlater
      rw [solutions_cons, List.forall_mem_append]
      refine ⟨fun b hb => hstep b ?_, hlater⟩
      cases step with
      | solution =>
          obtain rfl := List.mem_singleton.mp hb
          rfl
      | failed => cases hb
      | finished => cases hb

/-- A solution that comes out of the problem: the formula holds of it, it answers a request
for one solution, or an enumeration delivers it. The session may be any. -/
inductive Problem.Model (p : Problem) (b : Solution) : Prop
  | checked (h : p.check b = .ok true) (hread : ∀ entry ∈ b.entries, entry.2.Readable)
  | solved {σ : Type} [Session σ] {s s' : σ} (h : p.solveOne s = .ok (some b) s')
  | delivered {σ : Type} [Session σ] {start m : Models} {s s₁ s' : σ} {n : Nat}
      {steps : List Step} (hstart : p.models s = .ok start s₁)
      (h : start.calls n s₁ = .ok (steps, m) s') (hmem : b ∈ solutions steps)

namespace Problem

variable {p : Problem}

theorem paired_of_decode {σ : Type} [Session σ] {literals : Bindings Literal} {s s' : σ}
    {a : Assignment} {b : Solution} (h : p.compile s = .ok literals s')
    (hb : decode literals a = .ok b) :
    p.shapes.Paired (fun shape t => t.shape = shape ∧ t.Readable) b := by
  refine List.Forall₂.imp (fun e e' hee' => ⟨hee'.1, ?_⟩)
    ((paired_of_compile h).trans (decode_paired hb))
  obtain ⟨t, hshape, hsame, hread⟩ := hee'.2
  exact ⟨hsame.trans hshape, hread⟩

/-- All models bind the declared names to tensors of the declared shapes. -/
theorem Model.paired {b : Solution} (h : p.Model b) :
    p.shapes.Paired (fun shape t => t.shape = shape ∧ t.Readable) b := by
  cases h with
  | checked h hread => exact paired_of_check h hread
  | solved h =>
      obtain ⟨literals, s₁, hcompile, h⟩ := Run.bind_eq_ok.mp h
      obtain ⟨answer, s₂, -, h⟩ := Run.bind_eq_ok.mp h
      cases answer with
      | none => cases h
      | some a =>
          obtain ⟨b', hb, h⟩ := Run.lift_bind_eq_ok.mp h
          cases h
          exact paired_of_decode hcompile hb
  | delivered hstart h hmem =>
      obtain ⟨literals, s₁, hcompile, hstart⟩ := Run.bind_eq_ok.mp hstart
      cases hstart
      obtain ⟨a, hb⟩ := Models.calls_decoded h _ hmem
      exact paired_of_decode hcompile hb

theorem Model.comparable {x y : Solution} (hx : p.Model x) (hy : p.Model y) :
    Bindings.Comparable x y := by
  refine List.Forall₂.imp (fun e e' hee' => ⟨hee'.1, ?_⟩) (hx.paired.flip.trans hy.paired)
  obtain ⟨shape, ⟨hx, hreadx⟩, hy, hready⟩ := hee'.2
  exact ⟨hx.trans hy.symm, hreadx, hready⟩

end Problem

/-- The printed form determines the cells. What can be printed is what can be read, whatever
the shape and the storage. The texts of two tensors of one shape are the same exactly if each
index has one cell in both, which is what comparing the tensors answers. The texts of two
solutions that bind the same names to the same shapes are the same exactly if the solutions
are equal, and any two models of one problem are such solutions. -/
theorem printed_determines :
    (∀ t : Tensor Bool, (∃ s, t.text = .ok s) ↔ t.Readable) ∧
    (∀ t u : Tensor Bool, t.shape = u.shape → t.Readable → u.Readable →
      ∃ s s', t.text = .ok s ∧ u.text = .ok s' ∧ Tensor.equal t u = .ok (decide (s = s')) ∧
        (s = s' ↔ ∀ index ∈ t.shape.indices, t.get index = u.get index)) ∧
    (∀ b : Solution, (∃ s, b.text = .ok s) ↔ ∀ entry ∈ b.entries, entry.2.Readable) ∧
    (∀ x y : Solution, Bindings.Comparable x y →
      ∃ s s', x.text = .ok s ∧ y.text = .ok s' ∧
        Bindings.equal x y = .ok (decide (s = s'))) ∧
    ∀ (p : Problem) (x y : Solution), p.Model x → p.Model y →
      ∃ s s', x.text = .ok s ∧ y.text = .ok s' ∧
        Bindings.equal x y = .ok (decide (s = s')) := by
  refine ⟨fun t => Tensor.text_ok_iff, fun t u hshape ht hu => ?_,
    fun b => Bindings.text_ok_iff, fun x y h => Bindings.equal_eq_text h,
    fun p x y hx hy => Bindings.equal_eq_text (hx.comparable hy)⟩
  obtain ⟨s, s', hs, hs', hequal⟩ := Tensor.equal_eq_text hshape ht hu
  refine ⟨s, s', hs, hs', hequal, ?_⟩
  rw [(Tensor.text_same hshape hs hs').2]
  refine forall₂_congr fun index hindex => ?_
  obtain ⟨cell, hcell⟩ := ht index hindex
  rw [Tensor.SameCell, hcell]
  constructor
  · rintro ⟨_, ⟨⟩, hsame⟩
    exact hsame.symm
  · intro hsame
    exact ⟨cell, rfl, hsame.symm⟩

/-- Two rows of a unit matrix, each a slice of its own. -/
def unitSlices : Tensor Bool where
  shape := [2, 1, 2]
  strides := [2, 2, 1]
  offset := 0
  buffer := #[true, false, false, true]

/-- The same cells, stored behind another one and by columns. -/
def unitSlicesByColumns : Tensor Bool where
  shape := [2, 1, 2]
  strides := [1, 9, 2]
  offset := 1
  buffer := #[false, true, false, false, true]

example : unitSlicesByColumns.text = .ok "[0]:\n10\n\n[1]:\n01\n" := by
  decide +kernel

/-- The solution in which both cells are true, stored as one. -/
def bothOfTwo : Solution where
  entries := [("x", { shape := [2], strides := [0], offset := 0, buffer := #[true] })]
  ordered := List.pairwise_singleton _ _

theorem bothOfTwo_fit : bothOfTwo.Fit someOfTwo.shapes :=
  .cons ⟨rfl, rfl, ⟨rfl, by decide, by decide⟩⟩ .nil

theorem someOfTwo_solveOne : ∃ b s', someOfTwo.solveOne ({} : StandardSession) =
    .ok (some b) s' := by
  have hsome : (match someOfTwo.solveOne ({} : StandardSession) with
    | .ok answer _ => answer.isSome
    | .error _ _ => false) = true := by decide +kernel
  split at hsome
  next answer s' hsolve =>
    obtain ⟨b, rfl⟩ := Option.isSome_iff_exists.mp hsome
    exact ⟨b, s', hsolve⟩
  next => cases hsome

theorem printed_determines_unitSlices :
    (∃ s, unitSlices.text = .ok s ∧ unitSlicesByColumns.text = .ok s) ∧
    (∃ s s', firstOfTwo.text = .ok s ∧ bothOfTwo.text = .ok s' ∧ s ≠ s') ∧
    ∃ b s s', someOfTwo.Model b ∧ b.text = .ok s ∧ bothOfTwo.text = .ok s' ∧
      Bindings.equal b bothOfTwo = .ok (decide (s = s')) := by
  obtain ⟨-, htensors, -, hsolutions, hmodels⟩ := printed_determines
  have hslices : unitSlices.InBounds := ⟨rfl, by decide, by decide⟩
  have hcolumns : unitSlicesByColumns.InBounds := ⟨rfl, by decide, by decide⟩
  have hfirst : ∀ entry ∈ firstOfTwo.entries, entry.2.Readable := by
    intro entry hentry
    obtain ⟨_, -, -, -, hbounds⟩ := (exists_of_forall₂ firstOfTwo_fit).2 entry hentry
    exact hbounds.readable
  have hboth : ∀ entry ∈ bothOfTwo.entries, entry.2.Readable := by
    intro entry hentry
    obtain ⟨_, -, -, -, hbounds⟩ := (exists_of_forall₂ bothOfTwo_fit).2 entry hentry
    exact hbounds.readable
  refine ⟨?_, ?_, ?_⟩
  · obtain ⟨s, s', hs, hs', hequal, -⟩ :=
      htensors unitSlices unitSlicesByColumns rfl hslices.readable hcolumns.readable
    have hsame : Tensor.equal unitSlices unitSlicesByColumns = .ok true := by decide +kernel
    obtain rfl := of_decide_eq_true (Except.ok.inj (hequal.symm.trans hsame))
    exact ⟨s, hs, hs'⟩
  · have hnames : Bindings.Comparable firstOfTwo bothOfTwo :=
      .cons ⟨rfl, rfl, hfirst _ List.mem_cons_self, hboth _ List.mem_cons_self⟩ .nil
    obtain ⟨s, s', hs, hs', hequal⟩ := hsolutions firstOfTwo bothOfTwo hnames
    have hother : Bindings.equal firstOfTwo bothOfTwo = .ok false := by decide +kernel
    exact ⟨s, s', hs, hs', of_decide_eq_false (Except.ok.inj (hequal.symm.trans hother))⟩
  · obtain ⟨b, _, hsolve⟩ := someOfTwo_solveOne
    have hmodel : someOfTwo.Model b := .solved hsolve
    obtain ⟨s, s', htexts⟩ := hmodels someOfTwo b bothOfTwo hmodel (.checked rfl hboth)
    exact ⟨b, s, s', hmodel, htexts⟩

end TensorLogic
