import TensorLogic.Problem.Invariants
import TensorLogic.Problem.Models
import TensorLogic.Session.Standard
import TensorLogic.Table.Codec

/-!
# The command line

Arguments in, an exit code and two texts out. Commands write to standard output
as they go, so what was written before a failure stays written. A refused request
ends with its message on standard error and exit code 1, or 2 if the engine is to
blame; a trap ends with exit code 101.
-/

namespace TensorLogic.Cli

/-- What a run of the program leaves behind. -/
structure Outcome where
  code : Nat
  stdout : String
  stderr : String
  deriving DecidableEq, Repr

/-- An end before the end: the exit code and the last words on standard error. -/
structure Halt where
  code : Nat
  complaint : String := ""

/-- A command, which appends to standard output. -/
abbrev Command := EStateM Halt String

/-- The end that a fault brings about. -/
def Halt.ofFault : Fault → Halt
  | .refused cause =>
      { code := if cause.isMalformedInput then 1 else 2
        complaint := "Error: " ++ cause.message ++ "\n" }
  | .trapped cause => { code := 101, complaint := (cause.text?.getD "trapped") ++ "\n" }

instance : MonadLift (Except Fault) Command where
  monadLift
    | .ok a => pure a
    | .error fault => throw (.ofFault fault)

/-- Runs a computation in a session of its own. -/
def inSession {α : Type} (x : Run StandardSession α) : Command α :=
  match x {} with
  | .ok a _ => pure a
  | .error fault _ => throw (.ofFault fault)

def print (text : String) : Command Unit :=
  modify (· ++ text)

def printLine (text : String) : Command Unit :=
  print (text ++ "\n")

def complain {α : Type} (text : String) : Command α :=
  throw { code := 1, complaint := text ++ "\n" }

def version : String := "0.1.0"

def usage : String :=
  "tensorsat v" ++ version ++ " - boolean tensor constraints over SAT\n" ++
  "\n" ++
  "Usage: tensorsat [OPTIONS] <command> [args...]\n" ++
  "\n" ++
  "Commands:\n" ++
  "  grid <rows> <cols>            Exactly-one placements in a grid\n" ++
  "  relations <size> <property>   reflexive, symmetric, transitive,\n" ++
  "                                equivalence or essential relations\n" ++
  "  operations <size> <property>  majority or maltsev operations\n" ++
  "  decode <size> <table>         Show the tensor of a table, e.g. \"0 1 1 0\"\n" ++
  "  monoid <size> <table>         Count relations and operations invariant\n" ++
  "                                under the maps of a table, e.g. \"0 1 2 0 0 0\"\n" ++
  "\n" ++
  "Options:\n" ++
  "  -n, --limit <count>  Stop after <count> models\n" ++
  "  -q, --quiet          Print only the number of models\n" ++
  "  -h, --help           Show this help message\n" ++
  "  -v, --version        Show version\n"

/-- A number in decimal digits, with or without a plus sign, that is a word. -/
def readNumber (text : String) : Option Nat :=
  let digits := match text.toList with
    | '+' :: rest => rest
    | all => all
  if digits.isEmpty || !digits.all Char.isDigit then none
  else
    let n := Table.value digits
    if n < Word.bound then some n else none

structure Options where
  limit : Option Nat := none
  quiet : Bool := false
  command : List String := []

/-- Reads the arguments one after the other. Options may stand anywhere; asking
for help or for the version ends the reading. -/
def readOptions : List String → Options → Command Options
  | [], options => pure { options with command := options.command.reverse }
  | arg :: rest, options =>
      if arg = "-n" ∨ arg = "--limit" then
        match rest with
        | [] => complain ("Error: " ++ arg ++ " requires a count argument")
        | count :: rest =>
            match readNumber count with
            | some limit => readOptions rest { options with limit := some limit }
            | none => complain ("Error: " ++ arg ++ " requires a count argument")
      else if arg = "-q" ∨ arg = "--quiet" then
        readOptions rest { options with quiet := true }
      else if arg = "-h" ∨ arg = "--help" then do
        print usage
        throw { code := 0 }
      else if arg = "-v" ∨ arg = "--version" then do
        printLine ("tensorsat v" ++ version)
        throw { code := 0 }
      else if arg.startsWith "-" then
        complain ("Error: Unknown option '" ++ arg ++ "'\n"
          ++ "Try 'tensorsat --help' for usage information")
      else readOptions rest { options with command := arg :: options.command }

/-- The number at a place of the command. -/
def number (arg : Option String) (what : String) : Command Nat :=
  match arg.bind readNumber with
  | some n => pure n
  | none => complain ("Error: expected a number for <" ++ what ++ ">")

/-- Prints solutions under the heading `model i:`, counted from `i`. -/
def printSolutions : (i : Nat) → List Solution → Command Unit
  | _, [] => pure ()
  | i, solution :: rest => do
      printLine ("model " ++ i.repr ++ ":")
      let text : String ← Bindings.text solution
      printLine text
      printSolutions (i + 1) rest

/-- Prints the solutions of a problem and their number, or the number alone. -/
def printProblem (p : Problem) (options : Options) : Command Unit := do
  if options.quiet && options.limit.isNone then
    let count ← inSession p.count
    printLine count.repr
  else
    let solutions ← inSession (p.enumerate options.limit)
    if !options.quiet then
      printSolutions 1 solutions.toList
    printLine solutions.size.repr

/-- A line of statistics: the label, a colon, and the value in a column of its own. -/
def statisticsLine (label value : String) : String :=
  let head := label ++ ":"
  head ++ "".pushn ' ' (24 - head.length) ++ value

/-- The solutions of a query, stacked, and printed as a number. -/
def printQuery (monoid : Tensor Bool) (limit : Option Nat) (query : MonoidQuery) :
    Command (Tensor Bool) := do
  let invariants : Invariants ← Invariants.ofMonoid monoid query
  let p : Problem ← invariants.problem
  let solutions ← inSession (p.collect limit)
  let stacked : Tensor Bool ← solutions.get query.variableName
  printLine (statisticsLine query.describe (stacked.shape.getLast?.getD 0).repr)
  pure stacked

/-- Counts what a monoid leaves invariant, then the clones of its binary
operations over its essential ternary relations. -/
def statistics (size : Nat) (text : String) (options : Options) : Command Unit := do
  let monoid : Tensor Bool ← Table.decode size text
  let _ : Bool ← Run.value (Relation.isMonoid truthValues monoid)
  printLine ("monoid: " ++ text)
  let stacked ← MonoidQuery.every.mapM fun query => do
    let tensor ← printQuery monoid options.limit query
    pure (query, tensor)
  match stacked.lookup .essentialTernaryRelations, stacked.lookup .binaryOperations with
  | some relations, some operations => do
      let galois : Tensor Bool ← Relation.galoisConnection operations relations
      printLine (statisticsLine "galois connection" (" ".intercalate (galois.shape.map Nat.repr)))
      let p : Problem ← closedSubsets galois
      let closed ← inSession p.count
      printLine (statisticsLine "closed sets (clones)" closed.repr)
  | _, _ => pure ()

def dispatch (options : Options) : Command Unit := do
  match options.command with
  | [] =>
      print usage
      throw { code := 1 }
  | "grid" :: args =>
      let rows ← number args[0]? "rows"
      let columns ← number args[1]? "cols"
      let p : Problem ← exactlyOne [rows, columns]
      printProblem p options
  | "relations" :: args =>
      let size ← number args[0]? "size"
      let name := args[1]?.getD ""
      match RelationProperty.ofName? name with
      | none => complain ("Error: unknown relation property '" ++ name ++ "'")
      | some property =>
          let p : Problem ← property.problem size
          printProblem p options
  | "operations" :: args =>
      let size ← number args[0]? "size"
      let name := args[1]?.getD ""
      match OperationProperty.ofName? name with
      | none => complain ("Error: unknown operation property '" ++ name ++ "'")
      | some property =>
          let p : Problem ← property.problem size
          printProblem p options
  | "decode" :: args =>
      let size ← number args[0]? "size"
      let tensor : Tensor Bool ← Table.decode size (args[1]?.getD "")
      printLine (Shape.text tensor.shape)
      let text : String ← tensor.text
      print text
  | "monoid" :: args =>
      let size ← number args[0]? "size"
      statistics size (args[1]?.getD "") options
  | other :: _ =>
      complain ("Error: Unknown command '" ++ other ++ "'\n"
        ++ "Try 'tensorsat --help' for usage information")

def run (args : List String) : Outcome :=
  match (do dispatch (← readOptions args {}) : Command Unit) "" with
  | .ok _ stdout => { code := 0, stdout, stderr := "" }
  | .error halt stdout => { code := halt.code, stdout, stderr := halt.complaint }

end TensorLogic.Cli
