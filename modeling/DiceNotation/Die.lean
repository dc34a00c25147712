import DiceNotation.Bounds
import DiceNotation.Error
import DiceNotation.WeightIndex

/-!
Dice: what a die is, how one is built, which values it shows and how it is written.

A die is one of four kinds, and every kind carries the facts that make it drawable: a standard die
has a face, lists and tables have an entry, and the weights of a table are positive and sum to at
most `WeightTable.maxTotal`. Lists and tables keep their least and greatest value, and tables the
index that numbers are looked up in, with the facts that these are those of the entries. The
builders `Die.ofFaces`, `Die.ofValues` and `Die.ofEntries` compute what is kept and refuse entries
that lack the facts, naming the flaw. So a list or a table is told by its entries alone
(`FaceList.ext_values`, `WeightTable.ext_entries`).
-/
namespace DiceNotation
set_option autoImplicit false

/-! ## The four kinds -/

/-- How many faces a standard die has. Its faces are the numbers from one to `count`. -/
structure Faces where
  count : Nat
  pos : 0 < count
  le : count ≤ 2147483647
deriving DecidableEq

/-- Faces written one by one; a repeated one is likelier. -/
structure FaceList where
  values : List Score
  least : Score
  greatest : Score
  nonempty : values ≠ []
  bounds : Bounds values least greatest
deriving DecidableEq

structure WeightTable where
  entries : List (Score × Nat)
  index : WeightIndex
  least : Score
  greatest : Score
  nonempty : entries ≠ []
  positive : ∀ entry ∈ entries, 0 < entry.2
  total_le : weightTotal entries ≤ 4294967295
  indexes : index.Indexes entries
  bounds : Bounds (entries.map Prod.fst) least greatest
deriving DecidableEq

inductive Die where
  | standard (faces : Faces)
  | custom (list : FaceList)
  | weighted (table : WeightTable)
  /-- A flat modifier, which always shows the same value. -/
  | constant (value : Score)
deriving DecidableEq

/-- The largest sum of weights, the largest 32-bit word. -/
def WeightTable.maxTotal : Nat := 4294967295

def WeightTable.total (table : WeightTable) : Nat := weightTotal table.entries

theorem WeightTable.index_total (table : WeightTable) : table.index.total = table.total :=
  table.indexes.total

def Die.isConstant : Die → Bool
  | .constant _ => true
  | _ => false

theorem FaceList.ext_values {a b : FaceList} (h : a.values = b.values) : a = b := by
  obtain ⟨values, least, greatest, _, hbounds⟩ := a
  obtain ⟨values', least', greatest', _, hbounds'⟩ := b
  cases h
  obtain ⟨rfl, rfl⟩ := hbounds.unique hbounds'
  rfl

theorem WeightTable.ext_entries {a b : WeightTable} (h : a.entries = b.entries) : a = b := by
  obtain ⟨entries, index, least, greatest, _, _, _, hindex, hbounds⟩ := a
  obtain ⟨entries', index', least', greatest', _, _, _, hindex', hbounds'⟩ := b
  cases h
  obtain ⟨rfl, rfl⟩ := hbounds.unique hbounds'
  obtain rfl := hindex.unique hindex'
  rfl

/-! ## Building dice -/

def Faces.ofScore (given : Score) : Except DieFlaw Faces :=
  if h : 1 ≤ given.toInt then
    .ok ⟨given.toInt.toNat, by omega, by have := given.le; omega⟩
  else
    .error (.noFaces given)

/-- A list of values that are known to be some. -/
def FaceList.ofNonempty (values : List Score) (h : values ≠ []) : FaceList :=
  ⟨values, leastOf values h, greatestOf values h, h, bounds_of_ne_nil h⟩

def FaceList.ofValues (values : List Score) : Except DieFlaw FaceList :=
  if h : values = [] then .error .noValues else .ok (ofNonempty values h)

/-- A table of entries that are known to be some, with positive weights and a small total. -/
def WeightTable.ofPositive (entries : List (Score × Nat)) (hne : entries ≠ [])
    (hpos : ∀ entry ∈ entries, 0 < entry.2)
    (htotal : (WeightIndex.ofEntries entries).total ≤ maxTotal) : WeightTable :=
  have hvalues : entries.map Prod.fst ≠ [] := fun h => hne (List.map_eq_nil_iff.mp h)
  { entries
    index := .ofEntries entries
    least := leastOf _ hvalues
    greatest := greatestOf _ hvalues
    nonempty := hne
    positive := hpos
    total_le := WeightIndex.total_ofEntries entries ▸ htotal
    indexes := WeightIndex.indexes_ofEntries hne
    bounds := bounds_of_ne_nil hvalues }

theorem positive_of_find? {α : Type} {entries : List (α × Nat)}
    (h : entries.find? (fun entry => entry.2 == 0) = none) : ∀ entry ∈ entries, 0 < entry.2 := by
  intro entry hentry
  have hzero := List.find?_eq_none.mp h entry hentry
  rw [beq_iff_eq] at hzero
  omega

/-- An empty table is reported before a zero weight, and that before an overflow. -/
def WeightTable.ofEntries (entries : List (Score × Nat)) : Except DieFlaw WeightTable :=
  if hne : entries = [] then
    .error .noEntries
  else
    match hzero : entries.find? fun entry => entry.2 == 0 with
    | some entry => .error (.zeroWeight entry.1)
    | none =>
      if htotal : (WeightIndex.ofEntries entries).total ≤ maxTotal then
        .ok (ofPositive entries hne (positive_of_find? hzero) htotal)
      else
        .error .weightOverflow

namespace Die

def ofFaces (given : Score) : Except DieFlaw Die := (Faces.ofScore given).map .standard

def ofValues (values : List Score) : Except DieFlaw Die := (FaceList.ofValues values).map .custom

def ofEntries (entries : List (Score × Nat)) : Except DieFlaw Die :=
  (WeightTable.ofEntries entries).map .weighted

def fudge : Die := .custom (.ofNonempty [Score.one.neg, .zero, .one] (List.cons_ne_nil _ _))

end Die

/-! ## The values a die shows -/

def Faces.face (faces : Faces) (i : Fin faces.count) : Score :=
  ⟨(i : Nat) + 1, by omega, by have := faces.le; omega⟩

def WeightTable.values (table : WeightTable) : List Score := table.entries.map Prod.fst

namespace Die

def least : Die → Score
  | .standard _ => .one
  | .custom list => list.least
  | .weighted table => table.least
  | .constant value => value

def greatest : Die → Score
  | .standard faces => ⟨faces.count, by omega, by have := faces.le; omega⟩
  | .custom list => list.greatest
  | .weighted table => table.greatest
  | .constant value => value

/-- Every value the die can show, repetitions included, in the order of its faces. -/
def possibleValues : Die → List Score
  | .standard faces => (List.finRange faces.count).map faces.face
  | .custom list => list.values
  | .weighted table => table.values
  | .constant value => [value]

def valueCount : Die → Nat
  | .standard faces => faces.count
  | .custom list => list.values.length
  | .weighted table => table.entries.length
  | .constant _ => 1

/-- The first `n` possible values; the others are never made. -/
def firstValues (die : Die) (n : Nat) : List Score :=
  match die with
  | .standard faces =>
    (List.finRange (min n faces.count)).map fun i =>
      faces.face (i.castLE (Nat.min_le_right n faces.count))
  | .custom list => list.values.take n
  | .weighted table => (table.entries.take n).map Prod.fst
  | .constant value => [value].take n

theorem length_possibleValues (die : Die) : die.possibleValues.length = die.valueCount := by
  cases die <;> simp [possibleValues, valueCount, WeightTable.values]

theorem firstValues_eq_take (die : Die) (n : Nat) :
    die.firstValues n = die.possibleValues.take n := by
  cases die with
  | standard faces =>
    apply List.ext_getElem
    · simp [firstValues, possibleValues]
    · intro i _ _
      simp [firstValues, possibleValues, Faces.face]
  | custom list => rfl
  | weighted table => simp [firstValues, possibleValues, WeightTable.values, List.map_take]
  | constant value => rfl

end Die

/-! ## Spelling -/

def commaSeparated : List (List Char) → List Char
  | [] => []
  | [part] => part
  | part :: more => part ++ ',' :: commaSeparated more

namespace Die

/-- An entry of a weighted die, as in `6:3`. -/
def entrySpelling (entry : Score × Nat) : List Char :=
  entry.1.spelling ++ ':' :: Decimal.digits entry.2

/-- The die as a formula writes it, as in `d6`, `d[-1,0,1]`, `d[1:3,6:1]` and `4`. -/
def spelling : Die → List Char
  | .standard faces => 'd' :: Decimal.digits faces.count
  | .custom list => 'd' :: '[' :: commaSeparated (list.values.map Score.spelling) ++ [']']
  | .weighted table => 'd' :: '[' :: commaSeparated (table.entries.map entrySpelling) ++ [']']
  | .constant value => value.spelling

def text (die : Die) : String := String.ofList die.spelling

end Die

end DiceNotation
