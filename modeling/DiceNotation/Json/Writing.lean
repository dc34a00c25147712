import DiceNotation.Formula
import DiceNotation.Json

/-!
The JSON forms of dice, terms, formulas and rolls.

A value of several kinds is an object with the kind as its one key, or the kind's name alone where
nothing goes with it. A record is an object of its fields.
-/
namespace DiceNotation
set_option autoImplicit false

def Score.toJson (score : Score) : Json := .integer score.toInt

def WeightTable.entryToJson (entry : Score × Nat) : Json :=
  .array [entry.1.toJson, .integer entry.2]

def Die.toJson : Die → Json
  | .standard faces => .object [("Standard", .integer faces.count)]
  | .custom list => .object [("CustomValues", .array (list.values.map Score.toJson))]
  | .weighted table => .object [("Weighted", .array (table.entries.map WeightTable.entryToJson))]
  | .constant value => .object [("Constant", value.toJson)]

def Sign.toJson : Sign → Json
  | .plus => .string "Plus"
  | .minus => .string "Minus"

def Mode.toJson (mode : Mode) : Json := .string mode.name

def Term.toJson (term : Term) : Json :=
  .object [("sign", term.sign.toJson), ("count", .integer term.count), ("die", term.die.toJson)]

def DieRoll.toJson (roll : DieRoll) : Json :=
  .object [("die", roll.die.toJson), ("value", roll.value.toJson),
    ("coefficient", roll.sign.toJson)]

def Outcome.toJson (outcome : Outcome) : Json :=
  .object [("total", outcome.total.toJson), ("rolls", .array (outcome.rolls.map DieRoll.toJson)),
    ("max_total", outcome.maxTotal.toJson), ("breakdown", .string outcome.breakdown)]

def ModeOutcome.toJson (outcome : ModeOutcome) : Json :=
  .object [("mode", outcome.mode.toJson), ("primary", outcome.primary.toJson),
    ("secondary", outcome.secondary.elim .null Outcome.toJson)]

def DiagnosticKind.name : DiagnosticKind → String
  | .skipped => "Skipped"
  | .countFallback => "CountFallback"
  | .saturated => "Saturated"

def Diagnostic.toJson (diagnostic : Diagnostic) : Json :=
  .object [(diagnostic.kind.name,
    .object [("position", .integer diagnostic.position), ("text", .string diagnostic.text)])]

def Formula.toJson (formula : Formula) : Json :=
  .object [("terms", .array (formula.terms.map Term.toJson)),
    ("diagnostics", .array (formula.diagnostics.map Diagnostic.toJson)),
    ("recognized", .integer formula.recognized), ("skipped", .integer formula.skipped)]

end DiceNotation
