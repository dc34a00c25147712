import DiceNotation.Command

/-!
What the arguments of the command line ask for.

Arguments are taken from left to right. An option that needs a value takes what is attached to it,
or else the next argument if that does not look like an option; `--` ends the options. An option
may be given once. The mode and the seed fall back to the environment. `readArguments` is the reader
that the program is run with.
-/
namespace DiceNotation
set_option autoImplicit false

namespace Command

/-! ## What was given -/

structure Given where
  formula : Option String := none
  mode : Option Mode := none
  seed : Option Nat := none
  repetitions : Option Nat := none
  strict : Bool := false
  json : Bool := false
  check : Bool := false

/-! ## Values of options -/

/-- The number that digits write, if there are only digits and at least one. -/
def number? (cs : List Char) : Option Nat :=
  if cs ≠ [] ∧ cs.all Char.isDigit then some (Decimal.value cs) else none

/-- A seed: up to 64 bits, with or without a plus. -/
def seed? (text : String) : Option Nat := do
  let value ← match text.toList with
    | '+' :: cs => number? cs
    | cs => number? cs
  if value < 18446744073709551616 then some value else none

/-- A number of repetitions: up to 32 bits, with or without a sign, so that `-0` is zero. -/
def repetitions? (text : String) : Option Nat := do
  let value ← match text.toList with
    | '+' :: cs => number? cs
    | '-' :: cs => (number? cs).filter (· == 0)
    | cs => number? cs
  if value < 4294967296 then some value else none

def mode? (text : String) : Option Mode := (Mode.ofText text).toOption

/-! ## Options -/

inductive ValueOption where
  | mode
  | seed
  | repetitions

inductive SwitchOption where
  | strict
  | json
  | check
deriving DecidableEq

namespace Given

def setValue (given : Given) (option : ValueOption) (text : String) : Option Given :=
  match option with
  | .mode => do
    let value ← mode? text
    if given.mode.isSome then none else some { given with mode := some value }
  | .seed => do
    let value ← seed? text
    if given.seed.isSome then none else some { given with seed := some value }
  | .repetitions => do
    let value ← repetitions? text
    if given.repetitions.isSome then none else some { given with repetitions := some value }

def setSwitch (given : Given) : SwitchOption → Option Given
  | .strict => if given.strict then none else some { given with strict := true }
  | .json => if given.json then none else some { given with json := true }
  | .check => if given.check then none else some { given with check := true }

def setFormula (given : Given) (text : String) : Option Given :=
  if given.formula.isSome then none else some { given with formula := some text }

/-- The settings, with the environment for the options that were not given. -/
def settings (given : Given) (environment : Environment) : Option Settings := do
  let mode ← match given.mode, environment.mode with
    | some mode, _ => some mode
    | none, some text => mode? text
    | none, none => some .normal
  let seed ← match given.seed, environment.seed with
    | some seed, _ => some (some seed)
    | none, some text => some <$> seed? text
    | none, none => some none
  let formula ← given.formula
  return {
    formula, mode, seed
    repetitions := given.repetitions.getD 1
    strict := given.strict
    json := given.json
    check := given.check }

def request (given : Given) (environment : Environment) : Option Request :=
  Request.run <$> given.settings environment

end Given

/-! ## Arguments -/

inductive Argument where
  | endOfOptions
  | help
  | version
  | switch (option : SwitchOption)
  /-- An option that needs a value, and what is attached to it. -/
  | valued (option : ValueOption) (attached : Option String)
  | plain (text : String)
  | unknown

namespace Argument

/-- An option by its long name. Only an option that needs a value may have one attached. -/
def ofName (name : String) (attached : Option String) : Argument :=
  if name = "mode" then .valued .mode attached
  else if name = "seed" then .valued .seed attached
  else if name = "repeat" then .valued .repetitions attached
  else if attached.isSome then .unknown
  else if name = "strict" then .switch .strict
  else if name = "json" then .switch .json
  else if name = "check" then .switch .check
  else if name = "help" then .help
  else if name = "version" then .version
  else .unknown

/-- An option by its letter. Help and version are answered before what stands behind them. -/
def ofLetter (letter : Char) (attached : Option String) : Argument :=
  if letter = 'm' then .valued .mode attached
  else if letter = 'n' then .valued .repetitions attached
  else if letter = 'h' then .help
  else if letter = 'V' then .version
  else .unknown

/-- A lone dash is a plain argument. -/
def ofText (text : String) : Argument :=
  match text.toList with
  | '-' :: '-' :: [] => .endOfOptions
  | '-' :: '-' :: cs =>
    let attached := match cs.dropWhile (· ≠ '=') with
      | [] => none
      | _ :: value => some (String.ofList value)
    ofName (String.ofList (cs.takeWhile (· ≠ '='))) attached
  | '-' :: letter :: cs =>
    let attached := match cs with
      | [] => none
      | '=' :: value => some (String.ofList value)
      | value => some (String.ofList value)
    ofLetter letter attached
  | _ => .plain text

end Argument

/-- The request of the arguments after those already taken, or none if they make no sense. Help and
version are answered as soon as they are met. -/
def request (environment : Environment) (given : Given) : List String → Option Request
  | [] => given.request environment
  | text :: more =>
    match Argument.ofText text with
    | .plain value => do
      let given ← given.setFormula value
      request environment given more
    | .endOfOptions => do
      let given ← more.foldlM Given.setFormula given
      given.request environment
    | .unknown => none
    | .help => some .help
    | .version => some .version
    | .switch option => do
      let given ← given.setSwitch option
      request environment given more
    | .valued option (some value) => do
      let given ← given.setValue option value
      request environment given more
    | .valued option none =>
      match more with
      | [] => none
      | value :: more =>
        match Argument.ofText value with
        | .plain value => do
          let given ← given.setValue option value
          request environment given more
        | _ => none

def readArguments : ArgumentReader := fun arguments environment => request environment {} arguments

end Command

end DiceNotation
