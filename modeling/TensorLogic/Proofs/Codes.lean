import TensorLogic.Proofs.Grammar

/-!
# Codes read and written

The scanner goes through a text character by character, with the run of digits that is not
over yet on the side. What comes out of it is said without the run: a text of spaces and
digits is cut at its spaces, and its codes are the values of the pieces, as long as each of
them is a word (`parse_ok_iff`).

Pieces of any width are read, leading zeros included. Codes that are written have none and
stand one space apart, and such a text is read as the codes that it was written for
(`parse_written`).
-/

namespace TensorLogic.Table

/-- What stands between the spaces of a text. -/
def tokens (text : List Char) : List (List Char) :=
  (text.splitOn ' ').filter fun token => !token.isEmpty

theorem tokens_append_space (front behind : List Char) :
    tokens (front ++ ' ' :: behind) = tokens front ++ tokens behind := by
  rw [tokens, List.splitOn_append_cons_self, List.filter_append, tokens, tokens]

theorem tokens_eq {run : List Char} (h : ' ' ∉ run) :
    tokens run = if run.isEmpty then [] else [run] := by
  rw [tokens, List.splitOn_eq_singleton h]
  cases run <;> rfl

theorem length_tokens_le (text : List Char) : (tokens text).length ≤ text.length := by
  induction text with
  | nil => simp [tokens]
  | cons c rest ih =>
      rw [tokens, List.splitOn_eq_splitOnP] at ih ⊢
      rw [List.splitOnP_cons_eq_if_modifyHead, List.length_cons]
      split
      · simp only [List.isEmpty_nil, Bool.not_true, Bool.false_eq_true, not_false_eq_true,
          List.filter_cons_of_neg]
        omega
      · cases hsplit : rest.splitOnP (· == ' ') with
        | nil => simp
        | cons token behind =>
            have hle : (behind.filter fun token => !token.isEmpty).length ≤
                ((token :: behind).filter fun token => !token.isEmpty).length :=
              (List.sublist_cons_self token behind).filter _ |>.length_le
            rw [hsplit] at ih
            simp only [List.modifyHead_cons, List.isEmpty_cons, Bool.not_false,
              List.filter_cons_of_pos, List.length_cons]
            omega

/-! ## Reading -/

theorem not_space_of_isDigit {c : Char} (h : c.isDigit) : c ≠ ' ' := by
  rintro rfl
  exact absurd h (by decide)

/-- A run without spaces is one code, or none if it is empty. -/
theorem endRun_ok_iff {position : Nat} {run : List Char} {codes result : Array Nat}
    (h : ' ' ∉ run) :
    endRun position run codes = .ok result ↔
      (∀ token ∈ tokens run.reverse, value token < Word.bound) ∧
        result.toList = codes.toList ++ (tokens run.reverse).map value := by
  rw [tokens_eq (by simpa using h), endRun, List.isEmpty_reverse]
  cases run.isEmpty with
  | true => simp [Array.toList_inj, eq_comm]
  | false =>
      simp only [Bool.false_eq_true, if_false, List.forall_mem_singleton, List.map_singleton,
        ← Array.toList_push, Array.toList_inj]
      split
      next hlt => simp [hlt, eq_comm]
      next hge => simp [hge]

/-- What is read behind a run of digits: the pieces that the run and the rest are cut
into. -/
theorem scan_ok_iff {chars : List Char} {position : Nat} {run : List Char}
    {codes result : Array Nat} (hrun : ' ' ∉ run) :
    scan chars position run codes = .ok result ↔
      (∀ c ∈ chars, c.isDigit ∨ c = ' ') ∧
        (∀ token ∈ tokens (run.reverse ++ chars), value token < Word.bound) ∧
        result.toList = codes.toList ++ (tokens (run.reverse ++ chars)).map value := by
  induction chars generalizing position run codes with
  | nil =>
      rw [scan, endRun_ok_iff hrun, List.append_nil]
      simp
  | cons c rest ih =>
      rw [scan, List.forall_mem_cons]
      split
      next hdigit =>
          have hlonger : ' ' ∉ c :: run := by
            simp [hrun, (not_space_of_isDigit hdigit).symm]
          rw [ih hlonger, List.reverse_cons, List.append_assoc, List.singleton_append]
          simp [hdigit]
      next hdigit =>
          rw [bind_eq_ok]
          by_cases hspace : c = ' '
          · -- the run ends here, and its piece is the first one of the cut
            subst hspace
            simp only [if_true, endRun_ok_iff hrun, ih List.not_mem_nil]
            rw [tokens_append_space, List.forall_mem_append, List.map_append]
            constructor
            · rintro ⟨ended, ⟨hrunLt, hended⟩, hchars, hrestLt, hresult⟩
              refine ⟨⟨.inr trivial, hchars⟩, ⟨hrunLt, hrestLt⟩, ?_⟩
              rw [hresult, hended, List.append_assoc]
              rfl
            · rintro ⟨⟨-, hchars⟩, ⟨hrunLt, hrestLt⟩, hresult⟩
              refine ⟨(codes.toList ++ (tokens run.reverse).map value).toArray,
                ⟨hrunLt, rfl⟩, hchars, hrestLt, ?_⟩
              rw [hresult, ← List.append_assoc]
              rfl
          · constructor
            · rintro ⟨ended, -, h⟩
              rw [if_neg hspace] at h
              cases h
            · rintro ⟨⟨hc, -⟩, -⟩
              exact absurd hc (by simp [hdigit, hspace])

/-- The values of the pieces of a text, from left to right. -/
def textCodes (text : String) : List Nat :=
  (tokens text.toList).map value

/-- A text is a table if it has digits and spaces only and the values of all its pieces are
words. These values are its codes. -/
theorem parse_ok_iff {text : String} {codes : Array Nat} :
    parse text = .ok codes ↔
      (∀ c ∈ text.toList, c.isDigit ∨ c = ' ') ∧
        (∀ code ∈ textCodes text, code < Word.bound) ∧ codes.toList = textCodes text := by
  have hscan : parse text = .ok codes ↔ scan text.toList 0 [] #[] = .ok codes := by
    rw [parse_eq_scan]
    cases scan text.toList 0 [] #[] with
    | ok read => simp [Except.mapError]
    | error flaw => simp [Except.mapError]
  rw [hscan, scan_ok_iff List.not_mem_nil, textCodes, List.forall_mem_map]
  simp

theorem length_textCodes_le (text : String) : (textCodes text).length ≤ text.length := by
  rw [textCodes, List.length_map, ← String.length_toList]
  exact length_tokens_le text.toList

/-! ## Writing -/

/-- The codes in decimal, with one space between two of them. -/
def written (codes : List Nat) : String :=
  " ".intercalate (codes.map Nat.repr)

theorem value_repr (n : Nat) : value n.repr.toList = n := by
  rw [Nat.toList_repr]
  exact Nat.ofDigitChars_ten_toDigits

theorem isDigit_of_mem_repr {n : Nat} {c : Char} (h : c ∈ n.repr.toList) : c.isDigit := by
  rw [Nat.toList_repr] at h
  exact Nat.isDigit_of_mem_toDigits (by decide) (Nat.le_refl _) h

theorem toList_written (codes : List Nat) :
    (written codes).toList = [' '].intercalate (codes.map fun code => code.repr.toList) := by
  rw [written, String.toList_intercalate, List.map_map]
  rfl

theorem tokens_written (codes : List Nat) :
    tokens (written codes).toList = codes.map fun code => code.repr.toList := by
  have hspace : ∀ token ∈ codes.map fun code => code.repr.toList, ' ' ∉ token := by
    rintro token htoken hmem
    obtain ⟨code, -, rfl⟩ := List.mem_map.mp htoken
    exact not_space_of_isDigit (isDigit_of_mem_repr hmem) rfl
  have hfull : ∀ token ∈ codes.map fun code => code.repr.toList, !token.isEmpty := by
    rintro token htoken
    obtain ⟨code, -, rfl⟩ := List.mem_map.mp htoken
    rw [Nat.toList_repr]
    simp
  rw [tokens, toList_written]
  cases codes with
  | nil => rfl
  | cons code codes =>
      rw [List.splitOn_intercalate ' ' hspace (by simp), List.filter_eq_self.mpr hfull]

theorem textCodes_written (codes : List Nat) : textCodes (written codes) = codes := by
  rw [textCodes, tokens_written, List.map_map]
  exact List.map_id'' value_repr codes

theorem mem_written {codes : List Nat} {c : Char} (h : c ∈ (written codes).toList) :
    c.isDigit ∨ c = ' ' := by
  rw [toList_written] at h
  induction codes with
  | nil => cases h
  | cons code codes ih =>
      cases codes with
      | nil => exact .inl (isDigit_of_mem_repr (by simpa using h))
      | cons next codes =>
          rw [List.map_cons, List.map_cons, List.intercalate_cons_cons, List.mem_append,
            List.mem_append, List.mem_singleton] at h
          rcases h with (hcode | hspace) | hrest
          · exact .inl (isDigit_of_mem_repr hcode)
          · exact .inr hspace
          · exact ih hrest

/-- Codes that were written are read again. -/
theorem parse_written {codes : List Nat} (h : ∀ code ∈ codes, code < Word.bound) :
    parse (written codes) = .ok codes.toArray := by
  refine parse_ok_iff.mpr ⟨fun c hc => mem_written hc, ?_, ?_⟩
  · rwa [textCodes_written]
  · rw [textCodes_written]

end TensorLogic.Table
