/-!
# Parsers of texts

A parser reads some characters from the front of what is left of a text, or fails. A grammar
is put together from parsers for one character by sequences, repetitions and conversions of
what was read.

A repetition ends in front of what it cannot read, and that is no failure yet: the failure is
only remembered. If the grammar does not get on from there, the failure that came furthest is
the one that is reported, because it says what would have had to be there.
-/

namespace TensorLogic.Text

/-- What is left of a text, and the position of its first character. -/
structure Input where
  position : Nat
  rest : List Char
  deriving DecidableEq, Repr

/-- Why a parser did not go on. -/
inductive Reason where
  /-- It cannot read this character, or not the end of the text. -/
  | unexpected (found : Option Char)
  /-- What it read makes no sense, in words of its own. -/
  | custom (message : String)
  deriving DecidableEq, Repr

/-- What a parser failed for, on which span of the text, and how far it had come. -/
structure Failure where
  reach : Nat
  first : Nat
  stop : Nat
  reason : Reason
  deriving DecidableEq, Repr

namespace Failure

/-- The next character is not one that can be read here. -/
def here (input : Input) : Failure :=
  { reach := input.position, first := input.position, stop := input.position + 1
    reason := .unexpected input.rest.head? }

/-- The later of two failures that came equally far, and otherwise the one that came further. -/
def further : Option Failure → Option Failure → Option Failure
  | none, later => later
  | earlier, none => earlier
  | some earlier, some later => if later.reach < earlier.reach then some earlier else some later

/-- The failure, if none that is remembered came further. -/
def orFurther (failure : Failure) : Option Failure → Failure
  | none => failure
  | some remembered => if failure.reach < remembered.reach then remembered else failure

end Failure

/-- What was read, what is left behind it, and the failure that came furthest so far. -/
structure Parsed (α : Type) where
  output : α
  behind : Input
  remembered : Option Failure
  deriving DecidableEq, Repr

abbrev Parser (α : Type) := Input → Except Failure (Parsed α)

namespace Parser

variable {α β γ : Type}

/-- One character that passes the test. -/
def satisfy (test : Char → Bool) : Parser Char := fun input =>
  match input.rest with
  | c :: rest =>
      if test c then
        .ok { output := c, behind := { position := input.position + 1, rest }, remembered := none }
      else .error (.here input)
  | [] => .error (.here input)

def just (c : Char) : Parser Char :=
  satisfy (· == c)

/-- The end of the text. -/
def atEnd : Parser Unit := fun input =>
  match input.rest with
  | [] => .ok { output := (), behind := input, remembered := none }
  | _ :: _ => .error (.here input)

/-- One parser and then the other. -/
def followedBy (p : Parser α) (q : Parser β) (f : α → β → γ) : Parser γ := fun input =>
  match p input with
  | .error failure => .error failure
  | .ok left =>
      match q left.behind with
      | .error failure => .error (failure.orFurther left.remembered)
      | .ok right =>
          .ok { output := f left.output right.output, behind := right.behind
                remembered := Failure.further left.remembered right.remembered }

def ignoreThen (p : Parser α) (q : Parser β) : Parser β :=
  p.followedBy q fun _ b => b

def thenIgnore (p : Parser α) (q : Parser β) : Parser α :=
  p.followedBy q fun a _ => a

/-- Reads on for at most so many rounds. -/
def rounds (p : Parser α) : Nat → Input → Parsed (List α)
  | 0, input => { output := [], behind := input, remembered := none }
  | count + 1, input =>
      match p input with
      | .error failure => { output := [], behind := input, remembered := some failure }
      | .ok parsed =>
          let more := p.rounds count parsed.behind
          { output := parsed.output :: more.output, behind := more.behind
            remembered := Failure.further parsed.remembered more.remembered }

/-- As often as possible, and that may be never. Each round has to read something, so that
there are no more rounds than characters, and one in which nothing is left to read. -/
def repeated (p : Parser α) : Parser (List α) := fun input =>
  .ok (p.rounds (input.rest.length + 1) input)

/-- Converts what was read. If that is not possible, the failure spans what was read. -/
def tryMap (p : Parser α) (f : α → Except String β) : Parser β := fun input =>
  match p input with
  | .error failure => .error failure
  | .ok parsed =>
      match f parsed.output with
      | .ok output => .ok { parsed with output }
      | .error message =>
          .error { reach := parsed.behind.position, first := input.position
                   stop := parsed.behind.position, reason := .custom message }

/-- At least one decimal digit. -/
def digits : Parser (List Char) :=
  (satisfy Char.isDigit).followedBy (satisfy Char.isDigit).repeated List.cons

end Parser

end TensorLogic.Text
