import Mathlib.Data.List.TakeWhile
import TensorLogic.Proofs.Codes
import TensorLogic.Proofs.Reports

/-!
# What a text is read as

The codes of a text are told by its maximal runs of digits, and what is wrong with a text is
told by its flaws: a character that is neither space nor digit, or a maximal run whose value
is no word. A text is a table exactly if it has no flaw, its codes are then the values of its
maximal runs from left to right, and every other text is answered by a report on the flaw
that starts first (`parse_exact`). The report names the position and the character or the run
of digits, and no other flaw has the same report.

The scanner holds a run that is not over yet. What it has read before that run is `front`,
which ends where a run may start, so the run that it holds becomes a maximal one as soon as
the next character is no digit.
-/

namespace TensorLogic.Table

/-- The text goes on with `digits` from the position `start`, and neither side of them is
another digit. -/
def MaximalRun (text : List Char) (start : Nat) (digits : List Char) : Prop :=
  ∃ before behind, text = before ++ (digits ++ behind) ∧ before.length = start ∧
    digits ≠ [] ∧ (∀ c ∈ digits, c.isDigit) ∧
    (∀ c ∈ before.getLast?, ¬c.isDigit) ∧ ∀ c ∈ behind.head?, ¬c.isDigit

namespace MaximalRun

variable {text digits front run behind : List Char} {start : Nat}

theorem starts_digit (h : MaximalRun text start digits) :
    ∃ c, text[start]? = some c ∧ c.isDigit := by
  obtain ⟨before, behind, rfl, rfl, hdigits, hall, -⟩ := h
  obtain ⟨c, rest, rfl⟩ := List.exists_cons_of_ne_nil hdigits
  exact ⟨c, by simp, hall c List.mem_cons_self⟩

theorem before_not_digit (h : MaximalRun text (start + 1) digits) {c : Char}
    (hc : text[start]? = some c) : ¬c.isDigit := by
  obtain ⟨before, behind, rfl, hbefore, -, -, hlast, -⟩ := h
  refine hlast c ?_
  rw [List.getElem?_append_left (by omega)] at hc
  rw [List.getLast?_eq_getElem?, hbefore, Nat.add_sub_cancel, hc]
  rfl

/-- A maximal run is all the digits from its start on. -/
theorem digits_eq (h : MaximalRun text start digits) :
    digits = (text.drop start).takeWhile Char.isDigit := by
  obtain ⟨before, behind, rfl, rfl, -, hall, -, hhead⟩ := h
  rw [List.drop_left, List.takeWhile_append_of_pos hall]
  cases behind with
  | nil => simp
  | cons c behind =>
      have hc : ¬c.isDigit := hhead c rfl
      rw [List.takeWhile_cons_of_neg hc, List.append_nil]

/-- Where a run of digits is over, no maximal run starts within it but itself. -/
theorem eq_of_start_lt (h : MaximalRun (front ++ (run ++ behind)) start digits)
    (hrun : ∀ c ∈ run, c.isDigit) (hbehind : ∀ c ∈ behind.head?, ¬c.isDigit)
    (hfrom : front.length ≤ start) (hlt : start < front.length + run.length) :
    start = front.length ∧ digits = run := by
  have hstart : start = front.length := by
    by_contra hne
    obtain ⟨k, rfl⟩ : ∃ k, start = front.length + k + 1 :=
      ⟨start - front.length - 1, by omega⟩
    have hk : k < run.length := by omega
    refine h.before_not_digit (c := run[k]) ?_ (hrun _ (List.getElem_mem hk))
    rw [List.getElem?_append_right (by omega), Nat.add_sub_cancel_left,
      List.getElem?_append_left hk, List.getElem?_eq_getElem hk]
  refine ⟨hstart, ?_⟩
  have hdigits := h.digits_eq
  rw [hstart, List.drop_left, List.takeWhile_append_of_pos hrun] at hdigits
  cases behind with
  | nil => simpa using hdigits
  | cons c behind =>
      have hc : ¬c.isDigit := hbehind c rfl
      rw [hdigits, List.takeWhile_cons_of_neg hc, List.append_nil]

end MaximalRun

/-! ## The runs of a text -/

/-- The runs of digits of a text whose first character has this position, each with the
position that it starts at. -/
def digitRuns (position : Nat) : List Char → List (Nat × List Char)
  | [] => []
  | c :: rest =>
      if c.isDigit then
        (position, c :: rest.takeWhile Char.isDigit) ::
          digitRuns (position + (c :: rest.takeWhile Char.isDigit).length)
            (rest.dropWhile Char.isDigit)
      else digitRuns (position + 1) rest
termination_by chars => chars.length
decreasing_by
  · have := (List.dropWhile_sublist (l := rest) Char.isDigit).length_le
    simp only [List.length_cons]
    omega
  · simp

theorem run_append (c : Char) (rest : List Char) :
    (c :: rest.takeWhile Char.isDigit) ++ rest.dropWhile Char.isDigit = c :: rest := by
  rw [List.cons_append, List.takeWhile_append_dropWhile]

theorem isDigit_of_mem_run {c : Char} (rest : List Char) (h : c.isDigit) :
    ∀ d ∈ c :: rest.takeWhile Char.isDigit, d.isDigit :=
  List.forall_mem_cons.mpr ⟨h, fun _ hd => List.mem_takeWhile_imp hd⟩

/-- The runs found from a position on are the maximal runs of the whole text that start
there or later, unless the position is in the middle of a run. -/
theorem mem_digitRuns (front : List Char) {position : Nat} {chars : List Char}
    (hposition : front.length = position)
    (hcut : ∀ d ∈ chars.head?, d.isDigit → ∀ c ∈ front.getLast?, ¬c.isDigit)
    {start : Nat} {digits : List Char} :
    (start, digits) ∈ digitRuns position chars ↔
      position ≤ start ∧ MaximalRun (front ++ chars) start digits := by
  fun_induction digitRuns position chars generalizing front with
  | case1 position =>
      constructor
      · intro h
        cases h
      · rintro ⟨hle, h⟩
        obtain ⟨c, hc, -⟩ := h.starts_digit
        rw [List.append_nil, List.getElem?_eq_none (by omega)] at hc
        cases hc
  | case2 position c rest hdigit ih =>
      have hsplit := run_append c rest
      have hrun := isDigit_of_mem_run rest hdigit
      have hrest := ih (front ++ (c :: rest.takeWhile Char.isDigit))
        (by rw [List.length_append, hposition])
        fun d hd hisDigit => absurd hisDigit (Text.not_of_head_dropWhile _ rest d hd)
      rw [List.append_assoc, hsplit] at hrest
      rw [List.mem_cons, hrest, Prod.mk.injEq]
      constructor
      · rintro (⟨rfl, rfl⟩ | ⟨hle, h⟩)
        · exact ⟨Nat.le_refl _, front, rest.dropWhile Char.isDigit, by rw [hsplit], hposition,
            List.cons_ne_nil _ _, hrun, hcut c rfl hdigit, Text.not_of_head_dropWhile _ rest⟩
        · exact ⟨by omega, h⟩
      · rintro ⟨hle, h⟩
        rw [or_iff_not_imp_right]
        intro hbefore
        have hlt : start < position + (c :: rest.takeWhile Char.isDigit).length := by
          by_contra hge
          exact hbefore ⟨by omega, h⟩
        rw [← hsplit] at h
        rw [← hposition] at hle hlt ⊢
        exact h.eq_of_start_lt hrun (Text.not_of_head_dropWhile _ rest) hle hlt
  | case3 position c rest hdigit ih =>
      have hrest := ih (front ++ [c]) (by rw [List.length_append, hposition]; rfl)
        (by simp [hdigit])
      rw [List.append_assoc, List.singleton_append] at hrest
      rw [hrest]
      refine and_congr_left fun h => ?_
      have hne : start ≠ position := by
        rintro rfl
        obtain ⟨d, hd, hisDigit⟩ := h.starts_digit
        rw [← hposition, List.getElem?_append_right (Nat.le_refl _), Nat.sub_self] at hd
        cases hd
        exact hdigit hisDigit
      omega

theorem le_of_mem_digitRuns {position : Nat} {chars : List Char} {run : Nat × List Char}
    (h : run ∈ digitRuns position chars) : position ≤ run.1 := by
  fun_induction digitRuns position chars with
  | case1 position => cases h
  | case2 position c rest hdigit ih =>
      rcases List.mem_cons.mp h with rfl | h
      · exact Nat.le_refl _
      · exact Nat.le_trans (Nat.le_add_right _ _) (ih h)
  | case3 position c rest hdigit ih => exact Nat.le_of_succ_le (ih h)

/-- Runs are found from left to right. -/
theorem pairwise_digitRuns (position : Nat) (chars : List Char) :
    (digitRuns position chars).Pairwise fun a b => a.1 < b.1 := by
  fun_induction digitRuns position chars with
  | case1 position => exact List.Pairwise.nil
  | case2 position c rest hdigit ih =>
      refine List.Pairwise.cons (fun run hrun => ?_) ih
      have hle := le_of_mem_digitRuns hrun
      simp only [List.length_cons] at hle
      omega
  | case3 position c rest hdigit ih => exact ih

/-- A text of digits and spaces is cut at its spaces into its runs of digits. -/
theorem map_digitRuns (position : Nat) {chars : List Char}
    (h : ∀ c ∈ chars, c.isDigit ∨ c = ' ') :
    (digitRuns position chars).map (·.2) = tokens chars := by
  fun_induction digitRuns position chars with
  | case1 position => rfl
  | case2 position c rest hdigit ih =>
      rw [List.map_cons, ih fun d hd =>
        h d (List.mem_cons_of_mem _ ((List.dropWhile_sublist _).subset hd))]
      have hrun : ' ' ∉ c :: rest.takeWhile Char.isDigit := fun hmem =>
        not_space_of_isDigit (isDigit_of_mem_run rest hdigit _ hmem) rfl
      have hsplit := run_append c rest
      rw [← hsplit]
      cases hbehind : rest.dropWhile Char.isDigit with
      | nil => rw [List.append_nil, tokens_eq hrun]; rfl
      | cons d behind =>
          -- what ends the run is no digit, and so it is a space
          have hnot : ¬d.isDigit :=
            Text.not_of_head_dropWhile _ rest d (by rw [hbehind]; rfl)
          have hd : d ∈ c :: rest := by rw [← hsplit, hbehind]; simp
          obtain rfl : d = ' ' := (h d hd).resolve_left hnot
          have hspace : tokens (' ' :: behind) = tokens behind :=
            tokens_append_space [] behind
          rw [tokens_append_space, hspace, tokens_eq hrun]
          rfl
  | case3 position c rest hdigit ih =>
      obtain rfl : c = ' ' := (h c List.mem_cons_self).resolve_left hdigit
      rw [ih fun d hd => h d (List.mem_cons_of_mem _ hd)]
      exact (tokens_append_space [] rest).symm

/-! ## The first flaw of a text -/

/-- Where a flaw starts. -/
def Flaw.position : Flaw → Nat
  | unexpected position _ => position
  | oversized position _ => position

/-- The text has this flaw. -/
def Flaw.Offends (text : List Char) : Flaw → Prop
  | unexpected position c => text[position]? = some c ∧ ¬c.isDigit ∧ c ≠ ' '
  | oversized position digits => MaximalRun text position digits ∧ Word.bound ≤ value digits

/-- The text has this flaw, and none that starts earlier. -/
structure Flaw.First (text : List Char) (flaw : Flaw) : Prop where
  offends : flaw.Offends text
  le : ∀ other : Flaw, other.Offends text → flaw.position ≤ other.position

/-- A report tells which flaw it is on. -/
theorem Flaw.report_injective (text : String) : Function.Injective (Flaw.report text) := by
  have hmixed : ∀ c digits, stray c ≠ tooLarge digits := by
    intro c digits h
    have hstray : (stray c).toList.head? = some 'u' := by
      unfold stray
      simp
    have hlarge : (tooLarge digits).toList.head? = some 'c' := by
      unfold tooLarge
      simp
    rw [h, hlarge] at hstray
    cases hstray
  intro flaw other h
  have hposition := congrArg Text.Report.first h
  have hmessage := congrArg Text.Report.message h
  cases flaw with
  | unexpected position c =>
      cases other with
      | unexpected position' c' =>
          obtain rfl : position = position' := hposition
          have hstray : stray c = stray c' := hmessage
          unfold stray at hstray
          rw [String.append_left_inj, String.append_right_inj] at hstray
          rw [escaped_injective hstray]
      | oversized position' digits => exact absurd hmessage (hmixed c digits)
  | oversized position digits =>
      cases other with
      | unexpected position' c => exact absurd hmessage.symm (hmixed c digits)
      | oversized position' digits' =>
          obtain rfl : position = position' := hposition
          have hlarge : tooLarge digits = tooLarge digits' := hmessage
          unfold tooLarge at hlarge
          rw [String.append_left_inj, String.append_right_inj, String.ofList_inj] at hlarge
          rw [hlarge]

theorem Flaw.Offends.underlined {text : String} {flaw : Flaw} (h : flaw.Offends text.toList) :
    (flaw.report text).Underlined := by
  refine Text.Report.underlined ?_
  cases flaw with
  | unexpected position c => exact Nat.lt_succ_self position
  | oversized position digits =>
      obtain ⟨⟨_, _, -, -, hdigits, -⟩, -⟩ := h
      exact Nat.lt_add_of_pos_right (List.length_pos_iff.mpr hdigits)

/-- What the report on a flaw says: the position, counted from 1, and the message. -/
theorem Flaw.message_eq (text : String) (flaw : Flaw) : ∃ shown,
    (Error.unreadableTable (flaw.report text)).message =
      "malformed input: " ++ ("Error: Malformed input\n" ++ "   ╭─[<unknown>:1:" ++
        (flaw.position + 1).repr ++ "]\n" ++ shown ++ " " ++ (flaw.report text).message ++ "\n" ++
        "───╯\n") := by
  have hposition : (flaw.report text).first = flaw.position := by cases flaw <;> rfl
  obtain ⟨shown, htext⟩ := (flaw.report text).text_eq
  rw [hposition] at htext
  exact ⟨shown, congrArg ("malformed input: " ++ ·) htext⟩

/-- Two flaws do not start at one position. -/
theorem Flaw.Offends.eq {text : List Char} {flaw other : Flaw} (hflaw : flaw.Offends text)
    (hother : other.Offends text) (h : flaw.position = other.position) : flaw = other := by
  -- a run starts with a digit, which no unexpected character is
  have hmixed : ∀ {position c digits}, (unexpected position c).Offends text →
      ¬(oversized position digits).Offends text := by
    rintro position c digits ⟨hc, hdigit, -⟩ ⟨hrun, -⟩
    obtain ⟨d, hd, hisDigit⟩ := hrun.starts_digit
    rw [hc] at hd
    cases hd
    exact hdigit hisDigit
  cases flaw with
  | unexpected position c =>
      cases other with
      | unexpected position' c' =>
          obtain rfl : position = position' := h
          obtain rfl : c = c' := Option.some.inj (hflaw.1.symm.trans hother.1)
          rfl
      | oversized position' digits =>
          obtain rfl : position = position' := h
          exact absurd hother (hmixed hflaw)
  | oversized position digits =>
      cases other with
      | unexpected position' c =>
          obtain rfl : position = position' := h
          exact absurd hflaw (hmixed hother)
      | oversized position' digits' =>
          obtain rfl : position = position' := h
          rw [hflaw.1.digits_eq, hother.1.digits_eq]

theorem Flaw.First.eq {text : List Char} {flaw other : Flaw} (hflaw : flaw.First text)
    (hother : other.First text) : flaw = other :=
  hflaw.offends.eq hother.offends
    (Nat.le_antisymm (hflaw.le other hother.offends) (hother.le flaw hflaw.offends))

/-- No flaw starts within a run of digits that is over and whose value is a word. -/
theorem Flaw.Offends.behind_run {front run behind : List Char} {flaw : Flaw}
    (h : flaw.Offends (front ++ (run ++ behind))) (hrun : ∀ c ∈ run, c.isDigit)
    (hbehind : ∀ c ∈ behind.head?, ¬c.isDigit) (hvalue : value run < Word.bound)
    (hfrom : front.length ≤ flaw.position) : front.length + run.length ≤ flaw.position := by
  by_contra hlt
  have hlt : flaw.position < front.length + run.length := by omega
  cases flaw with
  | unexpected position c =>
      obtain ⟨hc, hdigit, -⟩ := h
      have hfrom : front.length ≤ position := hfrom
      have hlt : position < front.length + run.length := hlt
      rw [List.getElem?_append_right hfrom, List.getElem?_append_left (by omega)] at hc
      exact hdigit (hrun c (List.mem_of_getElem? hc))
  | oversized position digits =>
      obtain ⟨hmax, hlarge⟩ := h
      obtain ⟨-, rfl⟩ := hmax.eq_of_start_lt hrun hbehind hfrom hlt
      omega

/-- A space is no flaw. -/
theorem Flaw.Offends.position_ne {text : List Char} {flaw : Flaw} (h : flaw.Offends text)
    {position : Nat} (hspace : text[position]? = some ' ') : flaw.position ≠ position := by
  rintro rfl
  cases flaw with
  | unexpected position c =>
      obtain ⟨hc, -, hne⟩ := h
      exact hne (Option.some.inj (hc.symm.trans hspace))
  | oversized position digits =>
      obtain ⟨c, hc, hdigit⟩ := h.1.starts_digit
      obtain rfl : c = ' ' := Option.some.inj (hc.symm.trans hspace)
      exact not_space_of_isDigit hdigit rfl

/-! ## The scanner -/

theorem endRun_error {position : Nat} {run : List Char} {codes : Array Nat} {flaw : Flaw}
    (h : endRun position run codes = .error flaw) :
    run ≠ [] ∧ Word.bound ≤ value run.reverse ∧
      flaw = .oversized (position - run.length) run.reverse := by
  rw [endRun] at h
  split at h
  next => cases h
  next hne =>
      by_cases hlt : value run.reverse < Word.bound
      · rw [if_pos hlt] at h
        cases h
      · rw [if_neg hlt, List.length_reverse] at h
        cases h
        exact ⟨by simpa using hne, Nat.le_of_not_lt hlt, rfl⟩

theorem value_lt_of_endRun {position : Nat} {run : List Char} {codes ended : Array Nat}
    (h : endRun position run codes = .ok ended) : value run.reverse < Word.bound := by
  rw [endRun] at h
  split at h
  next hempty =>
      rw [List.isEmpty_iff.mp hempty]
      exact Nat.two_pow_pos _
  next =>
      by_contra hge
      rw [if_neg hge] at h
      cases h

/-- A run that is over and too large is the first flaw, if nothing is wrong before it. -/
theorem endRun_first {front run behind : List Char} {codes : Array Nat} {flaw : Flaw}
    (h : endRun (front.length + run.length) run codes = .error flaw)
    (hrun : ∀ c ∈ run, c.isDigit) (hfront : ∀ c ∈ front.getLast?, ¬c.isDigit)
    (hbehind : ∀ c ∈ behind.head?, ¬c.isDigit)
    (hfrom : ∀ other : Flaw, other.Offends (front ++ (run.reverse ++ behind)) →
      front.length ≤ other.position) :
    flaw.First (front ++ (run.reverse ++ behind)) := by
  obtain ⟨hne, hlarge, rfl⟩ := endRun_error h
  rw [Nat.add_sub_cancel]
  refine ⟨⟨⟨front, behind, rfl, rfl, ?_, ?_, hfront, hbehind⟩, hlarge⟩, hfrom⟩
  · rwa [ne_eq, List.reverse_eq_nil_iff]
  · intro c hc
    exact hrun c (List.mem_reverse.mp hc)

/-- What the scanner stops at is the first flaw of the whole text, if nothing is wrong before
the run that it holds. -/
theorem scan_first {chars : List Char} (front run : List Char) {codes : Array Nat} {flaw : Flaw}
    (h : scan chars (front.length + run.length) run codes = .error flaw)
    (hrun : ∀ c ∈ run, c.isDigit) (hfront : ∀ c ∈ front.getLast?, ¬c.isDigit)
    (hfrom : ∀ other : Flaw, other.Offends (front ++ (run.reverse ++ chars)) →
      front.length ≤ other.position) :
    flaw.First (front ++ (run.reverse ++ chars)) := by
  induction chars generalizing front run codes with
  | nil =>
      rw [scan] at h
      exact endRun_first h hrun hfront (by simp) hfrom
  | cons c rest ih =>
      rw [scan] at h
      split at h
      next hdigit =>
          have hwhole : front ++ (run.reverse ++ c :: rest) =
              front ++ ((c :: run).reverse ++ rest) := by simp
          rw [hwhole] at hfrom ⊢
          exact ih front (c :: run) h (List.forall_mem_cons.mpr ⟨hdigit, hrun⟩) hfront hfrom
      next hdigit =>
          have hbehind : ∀ d ∈ (c :: rest).head?, ¬d.isDigit := by simpa using hdigit
          cases hended : endRun (front.length + run.length) run codes with
          | error first =>
              rw [hended] at h
              cases h
              exact endRun_first hended hrun hfront hbehind hfrom
          | ok ended =>
              rw [hended] at h
              have hpast : ∀ other : Flaw, other.Offends (front ++ (run.reverse ++ c :: rest)) →
                  front.length + run.length ≤ other.position := by
                intro other hother
                have hle := hother.behind_run (fun d hd => hrun d (List.mem_reverse.mp hd))
                  hbehind (value_lt_of_endRun hended) (hfrom other hother)
                rwa [List.length_reverse] at hle
              have hat : (front ++ (run.reverse ++ c :: rest))[front.length + run.length]? =
                  some c := by
                rw [← List.append_assoc,
                  List.getElem?_append_right (by simp)]
                simp
              by_cases hspace : c = ' '
              · -- the space is no flaw either, and the next run may start behind it
                subst hspace
                have hwhole : front ++ (run.reverse ++ ' ' :: rest) =
                    (front ++ (run.reverse ++ [' '])) ++ (([] : List Char).reverse ++ rest) := by
                  simp
                have hlength : (front ++ (run.reverse ++ [' '])).length =
                    front.length + run.length + 1 := by
                  simp only [List.length_append, List.length_reverse, List.length_singleton]
                  omega
                have hnext : ∀ other : Flaw,
                    other.Offends (front ++ (run.reverse ++ ' ' :: rest)) →
                      front.length + run.length + 1 ≤ other.position := by
                  intro other hother
                  exact Nat.lt_of_le_of_ne (hpast other hother) (hother.position_ne hat).symm
                have hscan : scan rest (front.length + run.length + 1) [] ended = .error flaw := h
                rw [← hlength] at hscan hnext
                rw [hwhole] at hnext ⊢
                exact ih _ [] hscan (by simp) (by simp) hnext
              · have hflaw : flaw = .unexpected (front.length + run.length) c := by
                  change (if c = ' ' then _ else _) = _ at h
                  rw [if_neg hspace] at h
                  cases h
                  rfl
                rw [hflaw]
                exact ⟨⟨hat, hdigit, hspace⟩, hpast⟩

theorem parse_eq_error {text : String} {fault : Fault} (h : parse text = .error fault) :
    ∃ flaw : Flaw, flaw.First text.toList ∧
      fault = .refused (.unreadableTable (flaw.report text)) := by
  rw [parse_eq_scan] at h
  cases hscan : scan text.toList 0 [] #[] with
  | ok codes =>
      rw [hscan] at h
      cases h
  | error flaw =>
      rw [hscan] at h
      cases h
      refine ⟨flaw, ?_, rfl⟩
      exact scan_first [] [] hscan (by simp) (by simp)
        fun other _ => Nat.zero_le _

/-- A text with a flaw is no table. -/
theorem Flaw.Offends.not_ok {text : String} {flaw : Flaw} (h : flaw.Offends text.toList)
    {codes : Array Nat} : parse text ≠ .ok codes := by
  intro hparse
  obtain ⟨hchars, hwords, -⟩ := parse_ok_iff.mp hparse
  cases flaw with
  | unexpected position c =>
      obtain ⟨hc, hdigit, hspace⟩ := h
      exact (hchars c (List.mem_of_getElem? hc)).elim hdigit hspace
  | oversized position digits =>
      obtain ⟨hrun, hlarge⟩ := h
      have hmem : (position, digits) ∈ digitRuns 0 text.toList :=
        (mem_digitRuns [] rfl (by simp)).mpr ⟨Nat.zero_le _, hrun⟩
      have htoken : digits ∈ tokens text.toList := by
        rw [← map_digitRuns 0 hchars]
        exact List.mem_map_of_mem hmem
      have hlt := hwords (value digits) (List.mem_map_of_mem htoken)
      omega

/-- Zeros in front do not change a value. -/
theorem value_zeros (zeros : Nat) (digits : List Char) :
    value (List.replicate zeros '0' ++ digits) = value digits := by
  induction zeros with
  | zero => rfl
  | succ zeros ih =>
      rw [← ih]
      rfl

/-- A text is read if it has spaces and digits only and each of its maximal runs of digits
has a word as its value, and then it is read as these values from left to right. Any other
text is malformed input, reported at its first flaw: the report spans the character or the run,
underlines it, and says the position and what stands there. -/
theorem parse_exact (text : String) :
    ∃ runs : List (Nat × List Char),
      runs.Pairwise (fun a b => a.1 < b.1) ∧
      (∀ start digits, (start, digits) ∈ runs ↔ MaximalRun text.toList start digits) ∧
      (∀ codes, parse text = .ok codes ↔
        (∀ c ∈ text.toList, c.isDigit ∨ c = ' ') ∧
          (∀ run ∈ runs, value run.2 < Word.bound) ∧
          codes.toList = runs.map fun run => value run.2) ∧
      (∀ fault, parse text = .error fault ↔
        ∃ flaw : Flaw, flaw.First text.toList ∧
          fault = .refused (.unreadableTable (flaw.report text))) ∧
      (∀ position c, (Flaw.unexpected position c).report text =
        { source := text, first := position, stop := position + 1
          message := "unexpected character '" ++ escaped c ++ "'" }) ∧
      (∀ position digits, (Flaw.oversized position digits).report text =
        { source := text, first := position, stop := position + digits.length
          message := "code " ++ String.ofList digits ++ " is too large" }) ∧
      Function.Injective (Flaw.report text) ∧
      (∀ flaw : Flaw, flaw.Offends text.toList → (flaw.report text).Underlined) ∧
      (∀ flaw : Flaw, (Error.unreadableTable (flaw.report text)).kind = .malformedInput ∧
        ∃ shown, (Error.unreadableTable (flaw.report text)).message =
          "malformed input: " ++ ("Error: Malformed input\n" ++ "   ╭─[<unknown>:1:" ++
            (flaw.position + 1).repr ++ "]\n" ++ shown ++ " " ++
            (flaw.report text).message ++ "\n" ++ "───╯\n")) ∧
      ((∀ c ∈ text.toList, c = ' ') → parse text = .ok #[]) ∧
      ∀ zeros digits, value (List.replicate zeros '0' ++ digits) = value digits := by
  have hvalues : (∀ c ∈ text.toList, c.isDigit ∨ c = ' ') →
      (digitRuns 0 text.toList).map (fun run => value run.2) = textCodes text := by
    intro hchars
    rw [textCodes, ← map_digitRuns 0 hchars, List.map_map]
    rfl
  refine ⟨digitRuns 0 text.toList, pairwise_digitRuns 0 _, fun start digits => ?_,
    fun codes => ?_, fun fault => ⟨parse_eq_error, ?_⟩, fun position c => rfl,
    fun position digits => rfl, Flaw.report_injective text, fun _ => Flaw.Offends.underlined,
    fun flaw => ⟨rfl, flaw.message_eq text⟩, fun hspaces => ?_, value_zeros⟩
  · rw [mem_digitRuns [] List.length_nil (by simp)]
    exact and_iff_right (Nat.zero_le _)
  · rw [parse_ok_iff]
    refine and_congr_right fun hchars => ?_
    rw [← hvalues hchars, List.forall_mem_map]
  · rintro ⟨flaw, hfirst, rfl⟩
    cases hparse : parse text with
    | ok codes => exact absurd hparse hfirst.offends.not_ok
    | error fault =>
        obtain ⟨other, hother, rfl⟩ := parse_eq_error hparse
        rw [hfirst.eq hother]
  · have htokens : tokens text.toList = [] := by
      rw [← map_digitRuns 0 fun c hc => .inr (hspaces c hc),
        List.map_eq_nil_iff, List.eq_nil_iff_forall_not_mem]
      rintro ⟨start, digits⟩ hrun
      obtain ⟨c, hc, hdigit⟩ :=
        ((mem_digitRuns [] rfl (by simp)).mp hrun).2.starts_digit
      exact not_space_of_isDigit hdigit (hspaces c (List.mem_of_getElem? hc))
    refine parse_ok_iff.mpr ⟨fun c hc => .inr (hspaces c hc), ?_, ?_⟩
    · simp [textCodes, htokens]
    · simp [textCodes, htokens]

end TensorLogic.Table
