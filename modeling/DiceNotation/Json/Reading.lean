import DiceNotation.Json.Writing

/-!
Reading dice, terms, formulas and rolls from JSON.

What is read is a value that is parsed already, as `from_value` takes it, and not a text. Dice and
terms go through their builders, so what is read is valid. A value that a builder refuses keeps the
builder's error; every other misfit is a `DecodeError.mismatch`.

* The fields of an object are read in alphabetical order, unknown ones are ignored, and the first
  failure is the answer; a missing field counts as a failure only after all that are there. A
  parsed object has each key once, and a field that is there more than once is refused.
* A record may also be an array of all its fields, in the order in which they are written. What goes
  with the kind of a diagnostic is no record of its own, and has to be an object.
* A kind is a string, or an object with the kind as its only key.
-/
namespace DiceNotation
set_option autoImplicit false

inductive DecodeError where
  | mismatch
  /-- A builder refused the value. -/
  | refused (error : DiceError)

abbrev Decoder (α : Type) := Json → Except DecodeError α

namespace Json

/-! ## Readers for parts -/

def integerIn (lo hi : Int) : Decoder Int
  | .integer value => if lo ≤ value ∧ value ≤ hi then .ok value else .error .mismatch
  | _ => .error .mismatch

def word32 : Decoder Nat := fun value => Int.toNat <$> integerIn 0 4294967295 value

def word64 : Decoder Nat := fun value => Int.toNat <$> integerIn 0 18446744073709551615 value

def asString : Decoder String
  | .string value => .ok value
  | _ => .error .mismatch

def asList {α : Type} (decode : Decoder α) : Decoder (List α)
  | .array items => items.mapM decode
  | _ => .error .mismatch

def asOption {α : Type} (decode : Decoder α) : Decoder (Option α)
  | .null => .ok none
  | value => some <$> decode value

/-- A kind by name, and what goes with it if anything does. -/
def asKind : Decoder (String × Option Json)
  | .string name => .ok (name, none)
  | .object [(name, body)] => .ok (name, some body)
  | _ => .error .mismatch

/-- Nothing goes with a kind that is written alone or with null. -/
def asBare : Option Json → Except DecodeError Unit
  | none => .ok ()
  | some .null => .ok ()
  | some _ => .error .mismatch

/-- All that stands under a key. -/
def valuesAt (fields : List (String × Json)) (key : String) : List Json :=
  (fields.filter fun field => field.1 == key).map Prod.snd

/-- What stands under a key, if anything. A key that is repeated is refused. -/
def field? {α : Type} (fields : List (String × Json)) (key : String) (decode : Decoder α) :
    Except DecodeError (Option α) :=
  match valuesAt fields key with
  | [] => .ok none
  | [value] => some <$> decode value
  | _ :: _ :: _ => .error .mismatch

def present {α : Type} : Option α → Except DecodeError α
  | some part => .ok part
  | none => .error .mismatch

def item {α : Type} (decode : Decoder α) : List Json → Except DecodeError (α × List Json)
  | [] => .error .mismatch
  | first :: more => do
    let part ← decode first
    return (part, more)

def noMore : List Json → Except DecodeError Unit
  | [] => .ok ()
  | _ :: _ => .error .mismatch

end Json

open Json

def Score.ofJson : Decoder Score
  | .integer value => present (Score.ofInt? value)
  | _ => .error .mismatch

/-! ## Dice and terms -/

def WeightTable.entryOfJson : Decoder (Score × Nat)
  | .array items => do
    let (face, items) ← item Score.ofJson items
    let (weight, items) ← item word32 items
    noMore items
    return (face, weight)
  | _ => .error .mismatch

/-- Keeps the flaw for which a builder refused a die. -/
def Die.accept (made : Except DieFlaw Die) : Except DecodeError Die :=
  made.mapError fun flaw => .refused (.invalidDie flaw)

def Die.ofJson : Decoder Die := fun value => do
  match ← asKind value with
  | ("Standard", some body) => do
    let faces ← Score.ofJson body
    Die.accept (Die.ofFaces faces)
  | ("CustomValues", some body) => do
    let values ← asList Score.ofJson body
    Die.accept (Die.ofValues values)
  | ("Weighted", some body) => do
    let entries ← asList WeightTable.entryOfJson body
    Die.accept (Die.ofEntries entries)
  | ("Constant", some body) => do
    let value ← Score.ofJson body
    return .constant value
  | _ => .error .mismatch

def Sign.ofJson : Decoder Sign := fun value => do
  match ← asKind value with
  | ("Plus", body) => do
    asBare body
    return .plus
  | ("Minus", body) => do
    asBare body
    return .minus
  | _ => .error .mismatch

def Mode.ofJson : Decoder Mode := fun value => do
  match ← asKind value with
  | ("normal", body) => do
    asBare body
    return .normal
  | ("advantage", body) => do
    asBare body
    return .advantage
  | ("disadvantage", body) => do
    asBare body
    return .disadvantage
  | _ => .error .mismatch

/-- A sign that is not written is a plus. -/
def Term.ofJson : Decoder Term
  | .object fields => do
    let count ← field? fields "count" word32
    let die ← field? fields "die" Die.ofJson
    let sign ← field? fields "sign" Sign.ofJson
    let count ← present count
    let die ← present die
    (Term.make (sign.getD .plus) count die).mapError .refused
  | .array items => do
    let (sign, items) ← item Sign.ofJson items
    let (count, items) ← item word32 items
    let (die, items) ← item Die.ofJson items
    noMore items
    (Term.make sign count die).mapError .refused
  | _ => .error .mismatch

/-! ## Rolls -/

def DieRoll.ofJson : Decoder DieRoll
  | .object fields => do
    let sign ← field? fields "coefficient" Sign.ofJson
    let die ← field? fields "die" Die.ofJson
    let value ← field? fields "value" Score.ofJson
    return ⟨← present die, ← present value, ← present sign⟩
  | .array items => do
    let (die, items) ← item Die.ofJson items
    let (value, items) ← item Score.ofJson items
    let (sign, items) ← item Sign.ofJson items
    noMore items
    return ⟨die, value, sign⟩
  | _ => .error .mismatch

def Outcome.ofJson : Decoder Outcome
  | .object fields => do
    let breakdown ← field? fields "breakdown" asString
    let maxTotal ← field? fields "max_total" Score.ofJson
    let rolls ← field? fields "rolls" (asList DieRoll.ofJson)
    let total ← field? fields "total" Score.ofJson
    return ⟨← present total, ← present rolls, ← present maxTotal, ← present breakdown⟩
  | .array items => do
    let (total, items) ← item Score.ofJson items
    let (rolls, items) ← item (asList DieRoll.ofJson) items
    let (maxTotal, items) ← item Score.ofJson items
    let (breakdown, items) ← item asString items
    noMore items
    return ⟨total, rolls, maxTotal, breakdown⟩
  | _ => .error .mismatch

/-- A second outcome that is not written is none. -/
def ModeOutcome.ofJson : Decoder ModeOutcome
  | .object fields => do
    let mode ← field? fields "mode" Mode.ofJson
    let primary ← field? fields "primary" Outcome.ofJson
    let secondary ← field? fields "secondary" (asOption Outcome.ofJson)
    return ⟨← present mode, ← present primary, secondary.join⟩
  | .array items => do
    let (mode, items) ← item Mode.ofJson items
    let (primary, items) ← item Outcome.ofJson items
    let (secondary, items) ← item (asOption Outcome.ofJson) items
    noMore items
    return ⟨mode, primary, secondary⟩
  | _ => .error .mismatch

/-! ## Formulas -/

/-- The offset and the text of a diagnostic, which have to be an object. -/
def Diagnostic.ofBody (kind : DiagnosticKind) : Option Json → Except DecodeError Diagnostic
  | some (.object fields) => do
    let position ← field? fields "position" word64
    let text ← field? fields "text" asString
    return ⟨kind, ← present position, ← present text⟩
  | _ => .error .mismatch

def Diagnostic.ofJson : Decoder Diagnostic := fun value => do
  match ← asKind value with
  | ("Skipped", body) => ofBody .skipped body
  | ("CountFallback", body) => ofBody .countFallback body
  | ("Saturated", body) => ofBody .saturated body
  | _ => .error .mismatch

def Formula.ofJson : Decoder Formula
  | .object fields => do
    let diagnostics ← field? fields "diagnostics" (asList Diagnostic.ofJson)
    let recognized ← field? fields "recognized" word64
    let skipped ← field? fields "skipped" word64
    let terms ← field? fields "terms" (asList Term.ofJson)
    return {
      terms := ← present terms
      diagnostics := ← present diagnostics
      recognized := ← present recognized
      skipped := ← present skipped }
  | .array items => do
    let (terms, items) ← item (asList Term.ofJson) items
    let (diagnostics, items) ← item (asList Diagnostic.ofJson) items
    let (recognized, items) ← item word64 items
    let (skipped, items) ← item word64 items
    noMore items
    return { terms, diagnostics, recognized, skipped }
  | _ => .error .mismatch

end DiceNotation
