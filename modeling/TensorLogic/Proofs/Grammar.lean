import Mathlib.Data.List.TakeWhile
import TensorLogic.Proofs.Agreement
import TensorLogic.Table.Codes

/-!
# The grammar of tables as a scanner

The grammar reads ahead and takes back what leads nowhere. A scanner gets by without that: it
reads each character once, with the run of digits that is not over yet on the side, and stops
at the first flaw. Both read the same codes from a text, and the scanner's flaw is what the
grammar reports (`parse_eq_scan`).

For the codes it is enough to go through the rounds of the repetition. For the failure there
is more to it, because the last one to occur is always that of the end of the text, at the
place where the repetition stopped. A code that is too large came further than that, and so
it is the one that is reported; what any other round remembers did not come further than the
end did, and is forgotten (`Failure.orFurther_further`).
-/

namespace TensorLogic

namespace Text

theorem not_of_head_dropWhile (test : Char → Bool) (chars : List Char) :
    ∀ c ∈ (chars.dropWhile test).head?, ¬test c := by
  intro c hc
  have hnot := List.head?_dropWhile_not test chars
  rw [Option.mem_def.mp hc] at hnot
  simpa using hnot

/-! ## Parsers for one character -/

namespace Input

/-- The input behind all characters in front that pass the test. -/
def past (test : Char → Bool) (input : Input) : Input :=
  { position := input.position + (input.rest.takeWhile test).length
    rest := input.rest.dropWhile test }

variable {test : Char → Bool} {input : Input}

theorem position_le_past : input.position ≤ (input.past test).position :=
  Nat.le_add_right _ _

theorem position_lt_past {c : Char} (hhead : input.rest.head? = some c) (hc : test c) :
    input.position < (input.past test).position := by
  obtain ⟨rest, hrest⟩ := List.head?_eq_some_iff.mp hhead
  rw [past, hrest, List.takeWhile_cons_of_pos hc]
  exact Nat.lt_add_of_pos_right (Nat.succ_pos _)

theorem length_past_le : (input.past test).rest.length ≤ input.rest.length :=
  (List.dropWhile_sublist test).length_le

theorem length_past_lt {c : Char} (hhead : input.rest.head? = some c) (hc : test c) :
    (input.past test).rest.length < input.rest.length := by
  obtain ⟨rest, hrest⟩ := List.head?_eq_some_iff.mp hhead
  rw [past, hrest, List.dropWhile_cons_of_pos hc]
  exact Nat.lt_succ_of_le (List.dropWhile_sublist test).length_le

theorem not_of_head_past : ∀ c ∈ (input.past test).rest.head?, ¬test c :=
  not_of_head_dropWhile test input.rest

theorem past_of_head (h : ∀ c ∈ input.rest.head?, ¬test c) : input.past test = input := by
  cases input with
  | mk position rest =>
      cases rest with
      | nil => rfl
      | cons c rest =>
          have hc : ¬test c := h c rfl
          rw [past, List.takeWhile_cons_of_neg hc, List.dropWhile_cons_of_neg hc]
          rfl

theorem past_cons {position : Nat} {c : Char} {rest : List Char} (hc : test c) :
    past test ⟨position, c :: rest⟩ = past test ⟨position + 1, rest⟩ := by
  rw [past, past, List.takeWhile_cons_of_pos hc, List.dropWhile_cons_of_pos hc]
  simp only [List.length_cons, mk.injEq, and_true]
  omega

end Input

namespace Parser

variable {α β γ : Type} {test : Char → Bool} {input : Input}

theorem satisfy_cons {position : Nat} {c : Char} {rest : List Char} (hc : test c) :
    satisfy test ⟨position, c :: rest⟩ = .ok ⟨c, ⟨position + 1, rest⟩, none⟩ := by
  rw [satisfy]
  exact if_pos hc

theorem satisfy_error (h : ∀ c ∈ input.rest.head?, ¬test c) :
    satisfy test input = .error (.here input) := by
  cases input with
  | mk position rest =>
      cases rest with
      | nil => rfl
      | cons c rest => exact if_neg (h c rfl)

theorem rounds_satisfy {count : Nat} (h : input.rest.length < count) :
    (satisfy test).rounds count input =
      ⟨input.rest.takeWhile test, input.past test, some (.here (input.past test))⟩ := by
  induction count generalizing input with
  | zero => cases h
  | succ count ih =>
      rw [rounds]
      by_cases hhead : ∀ c ∈ input.rest.head?, ¬test c
      · rw [satisfy_error hhead, Input.past_of_head hhead]
        cases input with
        | mk position rest =>
            cases rest with
            | nil => rfl
            | cons c rest => rw [List.takeWhile_cons_of_neg (hhead c rfl)]
      · cases input with
        | mk position rest =>
            cases rest with
            | nil => exact absurd (by simp) hhead
            | cons c rest =>
                have hc : test c := by simpa using hhead
                rw [satisfy_cons hc, Input.past_cons hc, List.takeWhile_cons_of_pos hc]
                dsimp only
                rw [ih (Nat.lt_of_succ_lt_succ h)]
                rfl

/-- All characters in front that pass the test are read. -/
theorem repeated_satisfy (test : Char → Bool) (input : Input) :
    (satisfy test).repeated input =
      .ok ⟨input.rest.takeWhile test, input.past test, some (.here (input.past test))⟩ := by
  rw [repeated, rounds_satisfy (Nat.lt_succ_self _)]

theorem atEnd_ok (h : input.rest = []) : atEnd input = .ok ⟨(), input, none⟩ := by
  rw [atEnd, h]

theorem atEnd_error (h : input.rest ≠ []) : atEnd input = .error (.here input) := by
  rw [atEnd]
  cases hrest : input.rest with
  | nil => exact absurd hrest h
  | cons c rest => rfl

section

variable {p : Parser α} {q : Parser β} {f : α → β → γ} {left : Parsed α} {failure : Failure}

theorem followedBy_ok {right : Parsed β} (hp : p input = .ok left)
    (hq : q left.behind = .ok right) : p.followedBy q f input =
      .ok ⟨f left.output right.output, right.behind,
        Failure.further left.remembered right.remembered⟩ := by
  rw [followedBy, hp]
  dsimp only
  rw [hq]

theorem followedBy_left (hp : p input = .error failure) :
    p.followedBy q f input = .error failure := by
  rw [followedBy, hp]

theorem followedBy_right (hp : p input = .ok left) (hq : q left.behind = .error failure) :
    p.followedBy q f input = .error (failure.orFurther left.remembered) := by
  rw [followedBy, hp]
  dsimp only
  rw [hq]

variable {g : α → Except String β}

theorem tryMap_ok {b : β} (hp : p input = .ok left) (hg : g left.output = .ok b) :
    p.tryMap g input = .ok ⟨b, left.behind, left.remembered⟩ := by
  rw [tryMap, hp]
  dsimp only
  rw [hg]

theorem tryMap_left (hp : p input = .error failure) : p.tryMap g input = .error failure := by
  rw [tryMap, hp]

theorem tryMap_right {message : String} (hp : p input = .ok left)
    (hg : g left.output = .error message) :
    p.tryMap g input = .error
      { reach := left.behind.position, first := input.position, stop := left.behind.position
        reason := .custom message } := by
  rw [tryMap, hp]
  dsimp only
  rw [hg]

end

theorem digits_eq {c : Char} (hhead : input.rest.head? = some c) (hc : c.isDigit) :
    digits input = .ok ⟨input.rest.takeWhile Char.isDigit, input.past Char.isDigit,
      some (.here (input.past Char.isDigit))⟩ := by
  obtain ⟨position, rest⟩ := input
  obtain ⟨rest, rfl⟩ := List.head?_eq_some_iff.mp hhead
  rw [digits, followedBy_ok (satisfy_cons hc) (repeated_satisfy _ _), Input.past_cons hc,
    List.takeWhile_cons_of_pos hc]
  rfl

theorem digits_error (h : ∀ c ∈ input.rest.head?, ¬c.isDigit) :
    digits input = .error (.here input) := by
  rw [digits, followedBy_left (satisfy_error h)]

end Parser

namespace Failure

variable {failure : Failure}

/-- A remembered failure that did not come further makes no difference. -/
theorem orFurther_further {earlier : Failure} (h : earlier.reach ≤ failure.reach)
    (later : Option Failure) :
    failure.orFurther (further (some earlier) later) = failure.orFurther later := by
  cases later with
  | none => exact if_neg (Nat.not_lt.mpr h)
  | some later =>
      rw [further]
      split
      next hlt =>
          have hnot : ¬failure.reach < later.reach := by omega
          rw [orFurther, orFurther, if_neg hnot, if_neg (Nat.not_lt.mpr h)]
      next => rfl

theorem orFurther_self (input : Input) : (here input).orFurther (some (here input)) = here input :=
  if_neg (Nat.lt_irrefl _)

end Failure

end Text

namespace Table

open Text

/-! ## Codes -/

variable {input : Input} {c : Char}

theorem gap_eq (input : Input) : gap input =
    .ok ⟨input.rest.takeWhile (· == ' '), input.past (· == ' '),
      some (.here (input.past (· == ' ')))⟩ :=
  Parser.repeated_satisfy _ _

/-- The run of digits in front. -/
def run (input : Input) : List Char :=
  input.rest.takeWhile Char.isDigit

/-- What is left behind the run of digits in front and the spaces behind that. -/
def next (input : Input) : Input :=
  (input.past Char.isDigit).past (· == ' ')

section

variable (hhead : input.rest.head? = some c) (hc : c.isDigit)
include hhead hc

/-- A code and the gap behind it are read, if the code is a word. -/
theorem item_eq (hlt : value (run input) < Word.bound) :
    code.thenIgnore gap input =
      .ok ⟨value (run input), next input, some (.here (next input))⟩ := by
  have hcode : code input = .ok ⟨value (run input), input.past Char.isDigit,
      some (.here (input.past Char.isDigit))⟩ :=
    Parser.tryMap_ok (Parser.digits_eq hhead hc) (if_pos hlt)
  have hnot : ¬(next input).position < (input.past Char.isDigit).position :=
    Nat.not_lt.mpr Input.position_le_past
  rw [Parser.thenIgnore, Parser.followedBy_ok hcode (gap_eq _)]
  dsimp only
  rw [Failure.further, ← next, if_neg]
  exact hnot

theorem item_large (hlarge : ¬value (run input) < Word.bound) :
    code.thenIgnore gap input = .error
      { reach := (input.past Char.isDigit).position, first := input.position
        stop := (input.past Char.isDigit).position, reason := .custom (tooLarge (run input)) } := by
  have hcode : code input = .error
      { reach := (input.past Char.isDigit).position, first := input.position
        stop := (input.past Char.isDigit).position
        reason := .custom (tooLarge (run input)) } :=
    Parser.tryMap_right (Parser.digits_eq hhead hc) (if_neg hlarge)
  rw [Parser.thenIgnore, Parser.followedBy_left hcode]

end

theorem item_error (h : ∀ c ∈ input.rest.head?, ¬c.isDigit) :
    code.thenIgnore gap input = .error (.here input) := by
  rw [Parser.thenIgnore, code, Parser.followedBy_left (Parser.tryMap_left (Parser.digits_error h))]

/-! ## The scanner -/

/-- The first thing wrong with a text. -/
inductive Flaw where
  /-- A character, at its position, that cannot stand in a table. -/
  | unexpected (position : Nat) (c : Char)
  /-- A run of digits, from its position, whose value is no word. -/
  | oversized (position : Nat) (digits : List Char)
  deriving DecidableEq, Repr

/-- Ends the run of digits `run`, which is held back to front and ends right before
`position`. -/
def endRun (position : Nat) (run : List Char) (codes : Array Nat) : Except Flaw (Array Nat) :=
  if run.isEmpty then .ok codes
  else
    let digits := run.reverse
    if value digits < Word.bound then .ok (codes.push (value digits))
    else .error (.oversized (position - digits.length) digits)

/-- Reads on from `position`, with the run of digits right before it and the codes
before that. -/
def scan : List Char → (position : Nat) → (run : List Char) → Array Nat →
    Except Flaw (Array Nat)
  | [], position, run, codes => endRun position run codes
  | c :: rest, position, run, codes =>
      if c.isDigit then scan rest (position + 1) (c :: run) codes
      else do
        let codes ← endRun position run codes
        if c = ' ' then scan rest (position + 1) [] codes
        else .error (.unexpected position c)

/-- A flaw as the failure of a parser. -/
def Flaw.failure : Flaw → Failure
  | unexpected position c =>
      { reach := position, first := position, stop := position + 1, reason := .unexpected c }
  | oversized position digits =>
      { reach := position + digits.length, first := position, stop := position + digits.length
        reason := .custom (tooLarge digits) }

/-- The report on a flaw of a text: where it is, and what it is. -/
def Flaw.report (text : String) : Flaw → Report
  | unexpected position c =>
      { source := text, first := position, stop := position + 1, message := stray c }
  | oversized position digits =>
      { source := text, first := position, stop := position + digits.length
        message := tooLarge digits }

theorem Flaw.report_failure (text : String) (flaw : Flaw) :
    Table.report text flaw.failure = flaw.report text := by
  cases flaw <;> rfl

variable {chars held : List Char} {position : Nat} {codes : Array Nat}

theorem endRun_nil : endRun position [] codes = .ok codes :=
  rfl

theorem endRun_reverse {digits : List Char} (h : digits ≠ []) :
    endRun (position + digits.length) digits.reverse codes =
      if value digits < Word.bound then .ok (codes.push (value digits))
      else .error (.oversized position digits) := by
  rw [endRun, if_neg (by simpa using h)]
  simp only [List.reverse_reverse, Nat.add_sub_cancel]

/-- A run that is over can be ended first. -/
theorem scan_endRun (h : ∀ c ∈ chars.head?, ¬c.isDigit) :
    scan chars position held codes =
      endRun position held codes >>= fun codes => scan chars position [] codes := by
  cases chars with
  | nil => exact (bind_pure (endRun position held codes)).symm
  | cons c rest =>
      have hc : ¬c.isDigit := h c rfl
      simp only [scan, if_neg hc, endRun_nil]
      rfl

theorem scan_digits {digits : List Char} (h : ∀ c ∈ digits, c.isDigit) :
    scan (digits ++ chars) position held codes =
      scan chars (position + digits.length) (digits.reverse ++ held) codes := by
  induction digits generalizing position held with
  | nil => rfl
  | cons c digits ih =>
      rw [List.cons_append, scan, if_pos (h c List.mem_cons_self),
        ih fun d hd => h d (List.mem_cons_of_mem c hd), List.length_cons, List.reverse_cons,
        List.append_assoc]
      congr 1
      omega

theorem scan_spaces (input : Input) : scan input.rest input.position [] codes =
    scan (input.past (· == ' ')).rest (input.past (· == ' ')).position [] codes := by
  obtain ⟨position, rest⟩ := input
  induction rest generalizing position with
  | nil => rfl
  | cons c rest ih =>
      by_cases hc : c = ' '
      · subst hc
        rw [Input.past_cons (by decide), ← ih]
        rfl
      · rw [Input.past_of_head (by simpa using hc)]

/-- A run of digits in front is one code, or the flaw of the text. -/
theorem scan_run (hhead : input.rest.head? = some c) (hc : c.isDigit) :
    scan input.rest input.position [] codes =
      if value (run input) < Word.bound then
        scan (next input).rest (next input).position [] (codes.push (value (run input)))
      else .error (.oversized input.position (run input)) := by
  have hne : run input ≠ [] := by
    obtain ⟨rest, hrest⟩ := List.head?_eq_some_iff.mp hhead
    rw [run, hrest, List.takeWhile_cons_of_pos hc]
    exact List.cons_ne_nil _ _
  have hdigits : ∀ d ∈ run input, d.isDigit := fun d hd => List.mem_takeWhile_imp hd
  conv_lhs => rw [← List.takeWhile_append_dropWhile (p := Char.isDigit) (l := input.rest)]
  rw [← run, scan_digits hdigits, List.append_nil]
  change scan (input.past Char.isDigit).rest (input.position + (run input).length) _ _ = _
  rw [scan_endRun Input.not_of_head_past, endRun_reverse hne]
  split
  · exact scan_spaces (input.past Char.isDigit)
  · rfl

/-! ## The grammar and the scanner -/

/-- The rounds of the repetition stop at the end of the text if the scanner gets there, and
have then read the same codes. If it does not, what is to be reported is its flaw. -/
def Agrees (codes : Array Nat) (read : Parsed (List Nat)) : Except Flaw (Array Nat) → Prop
  | .ok result => read.behind.rest = [] ∧ result.toList = codes.toList ++ read.output
  | .error flaw => read.behind.rest ≠ [] ∧
      (Failure.here read.behind).orFurther read.remembered = flaw.failure

/-- One more code in front. That the gap behind it ended did not come further than what is
left behind all rounds. -/
theorem Agrees.cons {start : Input} {code : Nat} {read : Parsed (List Nat)}
    {result : Except Flaw (Array Nat)} (h : Agrees (codes.push code) read result)
    (hle : start.position ≤ read.behind.position) :
    Agrees codes ⟨code :: read.output, read.behind,
      Failure.further (some (.here start)) read.remembered⟩ result := by
  cases result with
  | ok result =>
      refine ⟨h.1, h.2.trans ?_⟩
      rw [Array.toList_push, List.append_assoc]
      rfl
  | error flaw =>
      refine ⟨h.1, ?_⟩
      dsimp only
      rw [Failure.orFurther_further hle]
      exact h.2

theorem rounds_agree {count : Nat} (h : input.rest.length < count)
    (hspace : ∀ c ∈ input.rest.head?, c ≠ ' ') (codes : Array Nat) :
    input.position ≤ ((code.thenIgnore gap).rounds count input).behind.position ∧
      Agrees codes ((code.thenIgnore gap).rounds count input)
        (scan input.rest input.position [] codes) := by
  induction count generalizing input codes with
  | zero => cases h
  | succ count ih =>
      rw [Parser.rounds]
      by_cases hhead : ∀ c ∈ input.rest.head?, ¬c.isDigit
      · -- neither a code nor a space, so the text is over or has its flaw here
        rw [item_error hhead]
        refine ⟨Nat.le_refl _, ?_⟩
        obtain ⟨position, rest⟩ := input
        cases rest with
        | nil => exact ⟨rfl, (List.append_nil _).symm⟩
        | cons c rest =>
            have hscan : scan (c :: rest) position [] codes = .error (.unexpected position c) := by
              rw [scan, if_neg (hhead c rfl), endRun_nil]
              exact if_neg (hspace c rfl)
            rw [hscan]
            exact ⟨List.cons_ne_nil _ _, Failure.orFurther_self _⟩
      · obtain ⟨c, hc, hdigit⟩ : ∃ c, input.rest.head? = some c ∧ c.isDigit := by
          simpa using hhead
        rw [scan_run hc hdigit]
        by_cases hlt : value (run input) < Word.bound
        · rw [item_eq hc hdigit hlt, if_pos hlt]
          have hlength : (next input).rest.length < count :=
            Nat.lt_of_le_of_lt Input.length_past_le
              (Nat.lt_of_lt_of_le (Input.length_past_lt hc hdigit) (Nat.le_of_lt_succ h))
          have hnext : ∀ c ∈ (next input).rest.head?, c ≠ ' ' := fun c hc => by
            simpa using Input.not_of_head_past c hc
          obtain ⟨hle, hagrees⟩ := ih hlength hnext (codes.push (value (run input)))
          have hfrom : input.position ≤ (next input).position :=
            Nat.le_trans Input.position_le_past Input.position_le_past
          exact ⟨Nat.le_trans hfrom hle, hagrees.cons hle⟩
        · rw [item_large hc hdigit hlt, if_neg hlt]
          refine ⟨Nat.le_refl _, fun hnil => ?_, if_pos ?_⟩
          · rw [hnil] at hc
            cases hc
          · exact Input.position_lt_past hc hdigit

/-- What the grammar reads of a text is what the scanner reads, and what it reports is the flaw
that the scanner stops at. -/
theorem parse_eq_scan (text : String) : parse text =
    (scan text.toList 0 [] #[]).mapError fun flaw =>
      .refused (.unreadableTable (flaw.report text)) := by
  let front : Input := ⟨0, text.toList⟩
  let start := front.past (· == ' ')
  let read := (code.thenIgnore gap).rounds (start.rest.length + 1) start
  have hstart : ∀ c ∈ start.rest.head?, c ≠ ' ' := fun c hc => by
    simpa using Input.not_of_head_past c hc
  obtain ⟨hle, hagrees⟩ := rounds_agree (Nat.lt_succ_self start.rest.length) hstart #[]
  have hread : gap.ignoreThen (code.thenIgnore gap).repeated front =
      .ok ⟨read.output, read.behind, Failure.further (some (.here start)) read.remembered⟩ :=
    Parser.followedBy_ok (gap_eq front) rfl
  have hspaces : scan text.toList 0 [] #[] = scan start.rest start.position [] #[] :=
    scan_spaces front
  unfold parse
  rw [hspaces]
  cases hscan : scan start.rest start.position [] #[] with
  | ok codes =>
      rw [hscan] at hagrees
      obtain ⟨hend, hcodes⟩ := hagrees
      have hgrammar : grammar front = .ok ⟨read.output, read.behind, Failure.further
          (Failure.further (some (.here start)) read.remembered) none⟩ := by
        rw [grammar, Parser.thenIgnore]
        exact Parser.followedBy_ok hread (Parser.atEnd_ok hend)
      have houtput : read.output = codes.toList := hcodes.symm
      rw [hgrammar]
      dsimp only
      rw [houtput, Array.toArray_toList]
      rfl
  | error flaw =>
      rw [hscan] at hagrees
      obtain ⟨hmore, hflaw⟩ := hagrees
      have hgrammar : grammar front = .error ((Failure.here read.behind).orFurther
          (Failure.further (some (.here start)) read.remembered)) := by
        rw [grammar, Parser.thenIgnore]
        exact Parser.followedBy_right hread (Parser.atEnd_error hmore)
      rw [hgrammar, Failure.orFurther_further hle, hflaw]
      dsimp only
      rw [Flaw.report_failure]
      rfl

end Table

end TensorLogic
