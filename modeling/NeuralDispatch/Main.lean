import NeuralDispatch.Command.Run

/-!
# The program

Reads the arguments and the environment, and writes what the command leaves behind.
-/

open NeuralDispatch

def main (arguments : List String) : IO UInt32 := do
  let values ← Command.variableNames.mapM fun name => do return (name, ← IO.getEnv name)
  let outcome := Command.run arguments fun name => (values.lookup name).join
  outcome.output.forM fun line => IO.println line
  outcome.errors.forM fun line => IO.eprintln line
  return UInt32.ofNat outcome.exitCode
