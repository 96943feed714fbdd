import TensorLogic.Size
import TensorLogic.Text.Parser

/-!
# Reading the codes of a table

A table is a list of decimal codes between spaces. Any number of spaces may stand
between two codes, before the first and behind the last, and a code is a maximal
run of digits, leading zeros included, whose value is a word. Spaces and digits
are those of ASCII and nothing else is let through.

A text that is no table is answered by a report on the failure of the grammar, which
points at a character that nobody can read there or at a run of digits that is too large.
-/

namespace TensorLogic.Table

open Text

def value (digits : List Char) : Nat :=
  digits.foldl (fun n c => 10 * n + (c.toNat - '0'.toNat)) 0

/-! ## The grammar -/

def gap : Parser (List Char) :=
  (Parser.just ' ').repeated

def tooLarge (digits : List Char) : String :=
  "code " ++ String.ofList digits ++ " is too large"

def code : Parser Nat :=
  Parser.digits.tryMap fun digits =>
    if value digits < Word.bound then .ok (value digits) else .error (tooLarge digits)

def grammar : Parser (List Nat) :=
  (gap.ignoreThen (code.thenIgnore gap).repeated).thenIgnore Parser.atEnd

/-! ## The report -/

def hex (n : Nat) : String :=
  String.ofList (Nat.toDigits 16 n)

/-- A character as messages show it: printable ASCII stands for itself. -/
def escaped (c : Char) : String :=
  if c = '\t' then "\\t"
  else if c = '\r' then "\\r"
  else if c = '\n' then "\\n"
  else if c = '\'' then "\\'"
  else if c = '"' then "\\\""
  else if c = '\\' then "\\\\"
  else if 0x20 ≤ c.toNat ∧ c.toNat ≤ 0x7E then c.toString
  else "\\u\x7b" ++ hex c.toNat ++ "\x7d"

def stray (c : Char) : String :=
  "unexpected character '" ++ escaped c ++ "'"

def explain : Reason → String
  | .custom message => message
  | .unexpected (some c) => stray c
  | .unexpected none => "unexpected end of input"

/-- The report on a failure to read a text. -/
def report (text : String) (failure : Failure) : Report :=
  { source := text, first := failure.first, stop := failure.stop
    message := explain failure.reason }

/-- The codes of a text, without looking at what they mean. -/
def parse (text : String) : Except Fault (Array Nat) :=
  match grammar { position := 0, rest := text.toList } with
  | .ok parsed => .ok parsed.output.toArray
  | .error failure => refuse (.unreadableTable (report text failure))

end TensorLogic.Table
