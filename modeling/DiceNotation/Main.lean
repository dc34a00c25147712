import DiceNotation.Command.Arguments
import DiceNotation.Draw.Source

/-!
The program: hands its arguments and environment to `Command.answer` and prints the answer. The
arguments are read by `Command.readArguments`, and random words come from a `Source`.
-/

def DiceNotation.freshSeed : IO UInt64 := do
  let bytes ← IO.getRandomBytes 8
  return bytes.foldl (fun seed byte => seed * 256 + byte.toUInt64) 0

def main (arguments : List String) : IO UInt32 := do
  let mode ← IO.getEnv "DICE_MODE"
  let seed ← IO.getEnv "DICE_SEED"
  let generator := DiceNotation.Source.generator (← DiceNotation.freshSeed)
  match DiceNotation.Command.answer DiceNotation.Command.readArguments generator arguments
    { mode, seed } with
  | .done output =>
    IO.print output
    return 0
  | .failed output error =>
    IO.print output
    IO.eprint error
    return 1
  | .usage =>
    IO.eprint DiceNotation.Command.helpText
    return 2
  | .endless =>
    IO.eprint "Error: the random source gave no roll\n"
    return 1
