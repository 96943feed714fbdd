import TensorLogic.Cli

/-!
# The program

Hands the arguments to `Cli.run`, writes both texts and exits.
-/

def main (args : List String) : IO UInt32 := do
  let outcome := TensorLogic.Cli.run args
  IO.print outcome.stdout
  IO.eprint outcome.stderr
  return outcome.code.toUInt32
