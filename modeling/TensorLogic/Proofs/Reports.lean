import Mathlib.Data.List.Flatten
import TensorLogic.Table.Codes

/-!
# What a report shows

The text of a report names the position that its span starts at and ends in its message
(`Report.text_eq`), and its underline stands below the span (`Report.Underlined`): to the
left of it are as many blanks as the characters in front of the span take columns in the line
above, and it is as wide as the characters of the span.

A message shows a character in a form that no other character has (`escaped_injective`).
-/

namespace TensorLogic

namespace Text

theorem toList_pushn (s : String) (c : Char) (n : Nat) :
    (s.pushn c n).toList = s.toList ++ List.replicate n c := by
  rw [String.pushn_eq_repeat_push]
  induction n with
  | zero => exact (List.append_nil _).symm
  | succ n ih =>
      rw [Nat.repeat, String.toList_push, ih, List.append_assoc, List.replicate_succ']

namespace Report

/-- The text names the first position of the span, and the message ends it. -/
theorem text_eq (r : Report) : ∃ shown, r.text =
    "Error: Malformed input\n" ++ "   ╭─[<unknown>:1:" ++ (r.first + 1).repr ++ "]\n"
      ++ shown ++ " " ++ r.message ++ "\n" ++ "───╯\n" := by
  refine ⟨"   │\n" ++ " 1 │ " ++ String.join (r.drawn.map (·.1)) ++ "\n"
    ++ "   │ " ++ r.underline ++ "\n" ++ "   │ " ++ r.pointer, ?_⟩
  unfold text
  simp only [String.append_assoc]

/-! ## The underline -/

/-- The width of the character that the line has at a position. -/
def widthAt (r : Report) (position : Nat) : Nat :=
  (r.drawn.map (·.2)).getD position 1

/-- The columns below so many characters of the line, from a position on. -/
def columns (r : Report) (start : Nat) : (count : Nat) → Nat
  | 0 => 0
  | count + 1 => r.widthAt start + columns r (start + 1) count

/-- The underline marks the columns of the span and no other ones. -/
def Underlined (r : Report) : Prop :=
  ∃ line, (∀ c ∈ line, c = '─' ∨ c = '┬') ∧
    line.length = r.columns r.first (r.stop - r.first) ∧
    r.underline.toList = List.replicate (r.columns 0 r.first) ' ' ++ line
      ++ List.replicate (r.columns r.stop 2) ' '

theorem stretch_succ (first more : Char) (columns : Nat) :
    (stretch first more (columns + 1)).toList = first :: List.replicate columns more := by
  rw [stretch, toList_pushn, Char.toString, String.toList_singleton]
  rfl

theorem length_stretch (first more : Char) (columns : Nat) :
    (stretch first more columns).toList.length = columns := by
  cases columns with
  | zero => rfl
  | succ columns => rw [stretch_succ, List.length_cons, List.length_replicate]

theorem mem_stretch {first more c : Char} {columns : Nat}
    (h : c ∈ (stretch first more columns).toList) : c = first ∨ c = more := by
  cases columns with
  | zero => cases h
  | succ columns =>
      rw [stretch_succ, List.mem_cons] at h
      exact h.imp_right List.eq_of_mem_replicate

theorem length_mark (r : Report) (position columns : Nat) :
    (r.mark position columns).toList.length = columns := by
  rw [mark]
  split
  · exact length_stretch _ _ _
  · split <;> exact length_stretch _ _ _

section

variable {r : Report} {position columns : Nat} {c : Char}

theorem mem_mark_inside (hfirst : r.first ≤ position) (hstop : position < r.stop)
    (hc : c ∈ (r.mark position columns).toList) : c = '─' ∨ c = '┬' := by
  rw [mark] at hc
  split at hc
  · exact (mem_stretch hc).symm
  · rw [if_pos ⟨hfirst, hstop⟩] at hc
    exact .inl ((mem_stretch hc).elim id id)

theorem mem_mark_outside (hspan : r.first < r.stop) (h : position < r.first ∨ r.stop ≤ position)
    (hc : c ∈ (r.mark position columns).toList) : c = ' ' := by
  have hmiddle : position ≠ r.middle := by
    rw [middle]
    omega
  have houtside : ¬(r.first ≤ position ∧ position < r.stop) := by omega
  rw [mark, if_neg hmiddle, if_neg houtside] at hc
  exact (mem_stretch hc).elim id id

end

/-- What the underline has below some characters. -/
def marks (r : Report) (start count : Nat) : List Char :=
  (List.range' start count).flatMap fun position =>
    (r.mark position (r.widthAt position)).toList

theorem length_marks (r : Report) (start count : Nat) :
    (r.marks start count).length = r.columns start count := by
  induction count generalizing start with
  | zero => rfl
  | succ count ih =>
      rw [marks, List.range'_succ, List.flatMap_cons, List.length_append, length_mark, columns,
        ← ih]
      rfl

theorem toList_underline (r : Report) : r.underline.toList = r.marks 0 (r.stop + 2) := by
  rw [underline, row, String.toList_join, List.range_eq_range', List.flatMap_map]
  rfl

theorem underlined {r : Report} (h : r.first < r.stop) : r.Underlined := by
  have hblank : ∀ start count, (∀ position, start ≤ position → position < start + count →
      position < r.first ∨ r.stop ≤ position) →
      r.marks start count = List.replicate (r.columns start count) ' ' := by
    intro start count houtside
    refine List.eq_replicate_iff.mpr ⟨length_marks r start count, fun c hc => ?_⟩
    obtain ⟨position, hposition, hmem⟩ := List.mem_flatMap.mp hc
    obtain ⟨hfrom, hto⟩ := List.mem_range'_1.mp hposition
    exact mem_mark_outside h (houtside position hfrom hto) hmem
  have hparts : r.marks 0 (r.stop + 2) =
      r.marks 0 r.first ++ r.marks r.first (r.stop - r.first) ++ r.marks r.stop 2 := by
    have hspan : r.first + (r.stop - r.first) = r.stop := by omega
    have hall : List.range' 0 (r.stop + 2) = List.range' 0 r.first
        ++ List.range' r.first (r.stop - r.first) ++ List.range' r.stop 2 := by
      have hfront := List.range'_append_1 (s := 0) (m := r.first) (n := r.stop - r.first)
      have hback := List.range'_append_1 (s := 0) (m := r.stop) (n := 2)
      rw [Nat.zero_add] at hfront hback
      rw [hfront, hspan, hback]
    rw [marks, hall, List.flatMap_append, List.flatMap_append]
    rfl
  refine ⟨r.marks r.first (r.stop - r.first), fun c hc => ?_, length_marks _ _ _, ?_⟩
  · obtain ⟨position, hposition, hmem⟩ := List.mem_flatMap.mp hc
    obtain ⟨hfrom, hto⟩ := List.mem_range'_1.mp hposition
    exact mem_mark_inside hfrom (by omega) hmem
  · rw [toList_underline, hparts, hblank 0 r.first (by omega), hblank r.stop 2 (by omega)]

end Report

end Text

namespace Table

/-! ## Characters in messages -/

theorem digitChar_inj {m n : Nat} (hm : m < 16) (hn : n < 16)
    (h : m.digitChar = n.digitChar) : m = n := by
  have hall : ∀ i j : Fin 16, i.val.digitChar = j.val.digitChar → i = j := by decide
  exact congrArg Fin.val (hall ⟨m, hm⟩ ⟨n, hn⟩ h)

theorem toDigits_inj {m n : Nat} (h : Nat.toDigits 16 m = Nat.toDigits 16 n) : m = n := by
  induction m using Nat.strongRecOn generalizing n with
  | ind m ih =>
      have hlast : ∀ i, (i % 16) < 16 := fun i => Nat.mod_lt i (by decide)
      rw [Nat.toDigits_eq_if (n := m) (by decide), Nat.toDigits_eq_if (n := n) (by decide)] at h
      by_cases hm : m < 16
      · by_cases hn : n < 16
        · rw [if_pos hm, if_pos hn] at h
          exact digitChar_inj hm hn (List.head_eq_of_cons_eq h)
        · rw [if_pos hm, if_neg hn] at h
          exact absurd (congrArg List.length h) (by simp)
      · by_cases hn : n < 16
        · rw [if_neg hm, if_pos hn] at h
          exact absurd (congrArg List.length h) (by simp)
        · rw [if_neg hm, if_neg hn] at h
          obtain ⟨hfront, hback⟩ := List.append_inj' h rfl
          have hquotient := ih (m / 16) (by omega) hfront
          have hrest := digitChar_inj (hlast m) (hlast n) (List.head_eq_of_cons_eq hback)
          omega

/-- Characters that have an escape of one letter, behind the letter. -/
def lettered : List (Char × Char) :=
  [('t', '\t'), ('r', '\r'), ('n', '\n'), ('\'', '\''), ('"', '"'), ('\\', '\\')]

/-- The escape by the number of a character. -/
def numbered (c : Char) : List Char :=
  "\\u\x7b".toList ++ Nat.toDigits 16 c.toNat ++ "\x7d".toList

theorem three_le_length_numbered (c : Char) : 3 ≤ (numbered c).length := by
  rw [numbered, List.length_append, List.length_append]
  exact Nat.le_trans (Nat.le_add_right 3 _) (Nat.le_add_right _ _)

theorem numbered_inj {c d : Char} (h : numbered c = numbered d) : c = d := by
  have hdigits := toDigits_inj (List.append_cancel_left (List.append_cancel_right h))
  rw [← Char.ofNat_toNat c, hdigits, Char.ofNat_toNat]

theorem escaped_cases (c : Char) : (escaped c).toList = [c] ∨
    (∃ letter, (letter, c) ∈ lettered ∧ (escaped c).toList = ['\\', letter]) ∨
    (escaped c).toList = numbered c := by
  by_cases hc : ∃ letter, (letter, c) ∈ lettered
  · refine .inr (.inl ?_)
    obtain ⟨letter, hmem⟩ := hc
    have hall : ∀ pair ∈ lettered, (escaped pair.2).toList = ['\\', pair.1] := by decide
    exact ⟨letter, hmem, hall _ hmem⟩
  · have hnot : ∀ pair ∈ lettered, c ≠ pair.2 := by
      rintro ⟨letter, d⟩ hmem rfl
      exact hc ⟨letter, hmem⟩
    simp only [lettered, List.forall_mem_cons] at hnot
    obtain ⟨ht, hr, hn, hquote, hdouble, hslash, -⟩ := hnot
    rw [escaped, if_neg ht, if_neg hr, if_neg hn, if_neg hquote, if_neg hdouble, if_neg hslash]
    split
    · exact .inl (String.toList_singleton c)
    · refine .inr (.inr ?_)
      simp only [String.toList_append, hex, String.toList_ofList, numbered]

/-- No two characters look the same in a message. -/
theorem escaped_injective : Function.Injective escaped := by
  intro c d h
  have hlist : (escaped c).toList = (escaped d).toList := congrArg String.toList h
  have hlength := congrArg List.length hlist
  have hlongC := three_le_length_numbered c
  have hlongD := three_le_length_numbered d
  -- the three forms have one, two and at least three characters
  rcases escaped_cases c with hc | ⟨letter, hletter, hc⟩ | hc
  · rcases escaped_cases d with hd | ⟨letter', hletter', hd⟩ | hd
    · rw [hc, hd] at hlist
      exact List.head_eq_of_cons_eq hlist
    · rw [hc, hd] at hlength
      cases hlength
    · rw [hc, hd, List.length_singleton] at hlength
      omega
  · rcases escaped_cases d with hd | ⟨letter', hletter', hd⟩ | hd
    · rw [hc, hd] at hlength
      cases hlength
    · rw [hc, hd] at hlist
      have hall : ∀ p ∈ lettered, ∀ q ∈ lettered, p.1 = q.1 → p.2 = q.2 := by decide
      exact hall _ hletter _ hletter' (List.head_eq_of_cons_eq (List.tail_eq_of_cons_eq hlist))
    · rw [hc, hd, List.length_cons, List.length_singleton] at hlength
      omega
  · rcases escaped_cases d with hd | ⟨letter', hletter', hd⟩ | hd
    · rw [hc, hd, List.length_singleton] at hlength
      omega
    · rw [hc, hd, List.length_cons, List.length_singleton] at hlength
      omega
    · rw [hc, hd] at hlist
      exact numbered_inj hlist

end Table

end TensorLogic
