import DiceNotation.Formula.Reading
import DiceNotation.Json.Writing

/-!
The command line: what the program prints for its arguments and environment.

A formula that cannot be read, or that `--check` finds unusable, ends the run with an error.
Otherwise the formula is checked or rolled as often as asked. How arguments are read and where
random words come from are parameters of `Command.answer`: an `ArgumentReader` and a `Generator`.
-/
namespace DiceNotation
set_option autoImplicit false

namespace Command

/-! ## Requests -/

/-- The two variables of the environment that stand in for options. -/
structure Environment where
  mode : Option String := none
  seed : Option String := none

structure Settings where
  formula : String
  mode : Mode := .normal
  seed : Option Nat := none
  repetitions : Nat := 1
  strict : Bool := false
  json : Bool := false
  check : Bool := false

inductive Request where
  | help
  | version
  | run (settings : Settings)

/-- How arguments are read in an environment. Without a request they make no sense. -/
abbrev ArgumentReader := List String → Environment → Option Request

/-! ## Answers -/

inductive Answer where
  | done (output : String)
  /-- What was printed, and the error that ended the run. -/
  | failed (output error : String)
  | usage
  /-- The random words did not bring the rolls to an end. -/
  | endless

def versionText : String := "dice-formula 0.1.0\n"

def helpText : String :=
  "Roll dice formulas such as 2d6+3 or 1d20-1d4\n\n" ++
  "Usage: dice-formula [OPTIONS] <FORMULA>\n\n" ++
  "Options:\n" ++
  "  -m, --mode <MODE>      normal, advantage or disadvantage [env: DICE_MODE]\n" ++
  "      --strict           Fail on text that is not part of any term\n" ++
  "      --seed <SEED>      Seed for reproducible rolls [env: DICE_SEED]\n" ++
  "  -n, --repeat <REPEAT>  How many times to roll\n" ++
  "      --json             Print one JSON object per roll\n" ++
  "      --check            Only check that the formula is usable\n" ++
  "  -h, --help             Print help\n" ++
  "  -V, --version          Print version\n"

/-- The lines for one roll: the outcome that counts, and the discarded one if there is one. -/
def rollText (outcome : ModeOutcome) : String :=
  let line (part : Outcome) := part.breakdown ++ " = " ++ part.total.text ++ "\n"
  line outcome.primary ++
    match outcome.secondary with
    | none => ""
    | some other => "  " ++ outcome.mode.name ++ " discarded: " ++ line other

namespace Settings

def options (settings : Settings) : ReadOptions := { strict := settings.strict }

def rollAll (settings : Settings) (formula : Formula) : Draw (List ModeOutcome) :=
  Draw.repeated (formula.rollWithMode settings.mode) settings.repetitions

/-- What is printed for one roll. -/
def line (settings : Settings) (outcome : ModeOutcome) : String :=
  if settings.json then outcome.toJson.text ++ "\n" else rollText outcome

def run (settings : Settings) (generator : Generator) : Answer :=
  match Formula.ofText settings.formula settings.options with
  | .error error =>
    .failed "" ("Error: cannot parse '" ++ settings.formula ++ "'\n\nCaused by:\n    "
      ++ error.message ++ "\n")
  | .ok formula =>
    if settings.check then
      if isUsable settings.formula then
        .done (formula.text ++ "\n")
      else
        .failed "" ("Error: '" ++ settings.formula ++ "' is not a usable formula\n")
    else
      match generator.run settings.seed (settings.rollAll formula) with
      | some outcomes => .done (String.join (outcomes.map settings.line))
      | none => .endless

end Settings

/-- The whole program: arguments and environment in, answer out. -/
def answer (read : ArgumentReader) (generator : Generator) (arguments : List String)
    (environment : Environment) : Answer :=
  match read arguments environment with
  | none => .usage
  | some .help => .done helpText
  | some .version => .done versionText
  | some (.run settings) => settings.run generator

end Command

end DiceNotation
