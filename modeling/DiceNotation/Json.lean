import DiceNotation.Decimal

/-!
JSON values and their compact text.

Numbers are told apart by how they are written: an integer has no point and no exponent. Objects
keep the order of their fields.
-/
namespace DiceNotation
set_option autoImplicit false

inductive Json where
  | null
  | bool (value : Bool)
  | integer (value : Int)
  /-- A number with a point or an exponent, as it is written. -/
  | decimal (spelling : String)
  | string (value : String)
  | array (items : List Json)
  | object (fields : List (String × Json))
deriving Inhabited

namespace Json

/-! ## Compact text -/

/-- The digit of a number below sixteen. -/
def hexDigit (n : Nat) : Char := Char.ofNat (if n < 10 then 48 + n else 87 + n)

/-- A character inside a string: quotes, backslashes and controls are escaped. -/
def escape (c : Char) : List Char :=
  if c = '"' then ['\\', '"']
  else if c = '\\' then ['\\', '\\']
  else if c = '\x08' then ['\\', 'b']
  else if c = '\x09' then ['\\', 't']
  else if c = '\x0a' then ['\\', 'n']
  else if c = '\x0c' then ['\\', 'f']
  else if c = '\x0d' then ['\\', 'r']
  else if c.toNat < 32 then ['\\', 'u', '0', '0', hexDigit (c.toNat / 16), hexDigit (c.toNat % 16)]
  else [c]

def quote (text : String) : List Char := '"' :: text.toList.flatMap escape ++ ['"']

mutual

/-- The value without any space between its parts. -/
def spelling : Json → List Char
  | .null => ['n', 'u', 'l', 'l']
  | .bool true => ['t', 'r', 'u', 'e']
  | .bool false => ['f', 'a', 'l', 's', 'e']
  | .integer (.ofNat n) => Decimal.digits n
  | .integer (.negSucc n) => '-' :: Decimal.digits (n + 1)
  | .decimal spelling => spelling.toList
  | .string value => quote value
  | .array items => '[' :: spellItems true items ++ [']']
  | .object fields => '\x7b' :: spellFields true fields ++ ['\x7d']

def spellItems (first : Bool) : List Json → List Char
  | [] => []
  | item :: more => (if first then [] else [',']) ++ item.spelling ++ spellItems false more

def spellFields (first : Bool) : List (String × Json) → List Char
  | [] => []
  | (key, value) :: more =>
    (if first then [] else [',']) ++ quote key ++ ':' :: value.spelling ++ spellFields false more

end

def text (value : Json) : String := String.ofList value.spelling

end Json

end DiceNotation
