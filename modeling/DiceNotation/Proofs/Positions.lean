import DiceNotation.Proofs.Faults

/-!
Positions around errors, and how far they are looked through.

Every error is its core under a list of positions. `FormulaError.place` adds a position only where
there is none, but a caller may also write one around an error that has some already.

* `FormulaError.positions` and `FormulaError.core`: the two parts, with `under_positions_core` that
  puts them together and `eq_under_iff` that finds no others;
* `position?_eq`, `inner_eq`, `dieError?_eq_some_iff`: what the accessors tell of the parts. They
  look through the outermost position and through no other;
* `Layer` and `layered`: an error built up from a core, layer by layer;
* `positions_of_reading`: a reading puts exactly one position around its errors;
* `SeenThrough`: the accessors reach the core; `accessors_see_through_one_position`: they do in an
  error that a reading reports, and in every other one with at most one position, but in no error
  with more.
-/
namespace DiceNotation
set_option autoImplicit false

namespace FormulaError

/-! ## Positions and core -/

/-- The positions around an error, the outermost first. -/
def positions : FormulaError → List Nat
  | .located position error => position :: error.positions
  | _ => []

/-- The error below all positions. -/
def core : FormulaError → FormulaError
  | .located _ error => error.core
  | error => error

/-- Puts positions around an error, the first of them outermost. -/
def under (positions : List Nat) (error : FormulaError) : FormulaError :=
  positions.foldr .located error

theorem under_positions_core (error : FormulaError) :
    under error.positions error.core = error := by
  cases error with
  | located position error => exact congrArg (located position) error.under_positions_core
  | _ => rfl

theorem position?_core (error : FormulaError) : error.core.position? = none := by
  cases error with
  | located position error => exact error.position?_core
  | _ => rfl

theorem positions_eq_nil_iff {error : FormulaError} :
    error.positions = [] ↔ error.position? = none := by
  cases error <;> simp [positions, position?]

theorem core_of_position?_eq_none {error : FormulaError} (h : error.position? = none) :
    error.core = error := by
  cases error with
  | located => cases h
  | _ => rfl

section Under
variable {base : FormulaError} (h : base.position? = none) (outer : List Nat)
include h

theorem positions_under : (under outer base).positions = outer := by
  induction outer with
  | nil => exact positions_eq_nil_iff.mpr h
  | cons position more ih => exact congrArg (position :: ·) ih

theorem core_under : (under outer base).core = base := by
  induction outer with
  | nil => exact core_of_position?_eq_none h
  | cons position more ih => exact ih

end Under

theorem eq_under_iff {error base : FormulaError} {outer : List Nat} :
    error = under outer base ∧ base.position? = none ↔
      outer = error.positions ∧ base = error.core := by
  constructor
  · rintro ⟨rfl, h⟩
    exact ⟨(positions_under h outer).symm, (core_under h outer).symm⟩
  · rintro ⟨rfl, rfl⟩
    exact ⟨error.under_positions_core.symm, error.position?_core⟩

/-! ## What the accessors tell -/

theorem position?_eq (error : FormulaError) : error.position? = error.positions.head? := by
  cases error <;> rfl

theorem inner_eq (error : FormulaError) :
    error.inner = under error.positions.tail error.core := by
  cases error with
  | located position error => exact error.under_positions_core.symm
  | _ => rfl

theorem positions_inner (error : FormulaError) : error.inner.positions = error.positions.tail := by
  rw [inner_eq, positions_under error.position?_core]

theorem position?_inner_eq_none_iff {error : FormulaError} :
    error.inner.position? = none ↔ error.positions.length ≤ 1 := by
  rw [← positions_eq_nil_iff, positions_inner, ← List.length_eq_zero_iff, List.length_tail]
  omega

theorem dieError?_eq_some_iff {error : FormulaError} {fault : DiceError} :
    error.dieError? = some fault ↔ error.positions.length ≤ 1 ∧ error.core = .die fault := by
  have hdie : error.dieError? = some fault ↔ error.inner = .die fault := by
    unfold dieError?
    split <;> simp_all
  rw [hdie, eq_comm, ← position?_inner_eq_none_iff]
  constructor
  · intro h
    have hnone : error.inner.position? = none := by rw [← h]; rfl
    have hcore := core_under error.position?_core error.positions.tail
    rw [← inner_eq, core_of_position?_eq_none hnone, ← h] at hcore
    exact ⟨hnone, hcore.symm⟩
  · rintro ⟨hnone, hcore⟩
    have h := core_under error.position?_core error.positions.tail
    rw [← inner_eq, core_of_position?_eq_none hnone, hcore] at h
    exact h.symm

/-! ## Adding positions -/

theorem core_place (position : Nat) (error : FormulaError) :
    (place position error).core = error.core := by
  cases error <;> rfl

theorem place_of_position?_ne_none {error : FormulaError} (h : error.position? ≠ none)
    (position : Nat) : place position error = error := by
  cases error with
  | located => rfl
  | _ => exact absurd rfl h

theorem foldl_place_of_position?_ne_none {error : FormulaError} (h : error.position? ≠ none)
    (later : List Nat) : later.foldl (fun error position => place position error) error = error := by
  induction later with
  | nil => rfl
  | cons position more ih => rw [List.foldl_cons, place_of_position?_ne_none h, ih]

/-- A position that is put around an error, where there is none yet or in any case. -/
inductive Layer where
  | placed (position : Nat)
  | written (position : Nat)

namespace Layer

def position : Layer → Nat
  | .placed position => position
  | .written position => position

def written? : Layer → Option Nat
  | .placed _ => none
  | .written position => some position

def wrap : Layer → FormulaError → FormulaError
  | .placed position, error => error.place position
  | .written position, error => .located position error

end Layer

/-- The layers are put around the error from the first to the last. -/
def layered (layers : List Layer) (error : FormulaError) : FormulaError :=
  layers.foldl (fun error layer => layer.wrap error) error

theorem layered_cons (layer : Layer) (more : List Layer) (error : FormulaError) :
    layered (layer :: more) error = layered more (layer.wrap error) := rfl

theorem core_layered (layers : List Layer) (error : FormulaError) :
    (layered layers error).core = error.core := by
  induction layers generalizing error with
  | nil => rfl
  | cons layer more ih =>
    have hlayer : (layer.wrap error).core = error.core := by
      cases layer with
      | placed position => exact core_place position error
      | written position => rfl
    rw [layered_cons, ih, hlayer]

/-- Around an error that has a position only the written ones are added. -/
theorem positions_layered_of_located (layers : List Layer) {error : FormulaError}
    (h : error.position? ≠ none) :
    (layered layers error).positions =
      (layers.filterMap Layer.written?).reverse ++ error.positions := by
  induction layers generalizing error with
  | nil => rfl
  | cons layer more ih =>
    rw [layered_cons, List.filterMap_cons]
    cases layer with
    | placed position =>
      rw [Layer.wrap, place_of_position?_ne_none h]
      exact ih h
    | written position =>
      have hmore : (layered more (.located position error)).positions = _ :=
        ih (Option.some_ne_none position)
      rw [Layer.wrap, hmore, Layer.written?, List.reverse_cons, List.append_assoc]
      rfl

/-- The innermost position is the first one, however it was added. -/
theorem positions_layered {base : FormulaError} (h : base.position? = none) (first : Layer)
    (more : List Layer) :
    (layered (first :: more) base).positions =
      (more.filterMap Layer.written?).reverse ++ [first.position] := by
  have hfirst : first.wrap base = .located first.position base := by
    cases first with
    | written position => rfl
    | placed position =>
      cases base with
      | located => cases h
      | _ => rfl
  have hlocated : (first.wrap base).position? ≠ none := by
    rw [hfirst]
    exact Option.some_ne_none _
  rw [layered_cons, positions_layered_of_located more hlocated, hfirst, positions,
    positions_eq_nil_iff.mpr h]

end FormulaError

/-! ## Errors of readings -/

theorem positions_of_reading {text : String} {options : ReadOptions} {error : FormulaError}
    (h : Formula.ofText text options = .error error) : error.positions.length = 1 := by
  rcases ofSegments_eq_error h with ⟨-, segment, -, issue, -, rfl⟩ | ⟨form, flaw, -, -, rfl⟩
  · obtain ⟨kind, position, quoted⟩ := issue
    cases kind <;> rfl
  · rfl

namespace FormulaError

/-- The accessors do what they say: the inner error has no position, and the fault of a die is found
below all positions. -/
structure SeenThrough (error : FormulaError) : Prop where
  inner : error.inner.position? = none
  dieError : ∀ fault, error.dieError? = some fault ↔ error.core = .die fault

theorem seenThrough_iff {error : FormulaError} :
    error.SeenThrough ↔ error.positions.length ≤ 1 := by
  constructor
  · intro h
    exact position?_inner_eq_none_iff.mp h.inner
  · intro h
    refine ⟨position?_inner_eq_none_iff.mpr h, fun fault => ?_⟩
    rw [dieError?_eq_some_iff, and_iff_right h]

end FormulaError

open FormulaError in
/-- The accessors see through an error just where it has at most one position. An error is its core
under its positions; the outermost position is the one that is told, and the inner error has the
others. Placing an error that has a position changes nothing. If the error was built up from a core,
the layers that are written around another one all count, and a placed one counts only if it is
first. An error of a reading has one position. -/
theorem accessors_see_through_one_position (error : FormulaError) :
    (error.SeenThrough ↔ error.positions.length ≤ 1) ∧
    (∀ fault, error.dieError? = some fault ↔
      error.positions.length ≤ 1 ∧ error.core = .die fault) ∧
    under error.positions error.core = error ∧ error.core.position? = none ∧
    error.position? = error.positions.head? ∧
    error.inner = under error.positions.tail error.core ∧
    (error.position? ≠ none → ∀ later : List Nat,
      later.foldl (fun error position => place position error) error = error) ∧
    (∀ base first more, base.position? = none → error = layered (first :: more) base →
      error.core = base ∧
        error.positions = (more.filterMap Layer.written?).reverse ++ [first.position]) ∧
    ∀ text options, Formula.ofText text options = .error error → error.positions.length = 1 := by
  refine ⟨seenThrough_iff, fun _ => dieError?_eq_some_iff, error.under_positions_core,
    error.position?_core, error.position?_eq, error.inner_eq, foldl_place_of_position?_ne_none,
    ?_, fun _ _ => positions_of_reading⟩
  rintro base first more hbase rfl
  exact ⟨(core_layered _ base).trans (core_of_position?_eq_none hbase),
    positions_layered hbase first more⟩

/-- A count of zero is at fault under two positions. -/
def twiceLocated : FormulaError := .located 0 (.located 1 (.die .zeroCount))

/-- A position is written around placed ones, more are placed around two written ones, and a die
without faces is reported. -/
theorem accessors_see_through_one_position_layers :
    (FormulaError.layered [.placed 3, .written 1, .placed 2] (.unrecognized "x")).positions =
        [1, 3] ∧
      [7, 8].foldl (fun error position => FormulaError.place position error) twiceLocated =
        twiceLocated ∧
      ∃ error, Formula.ofText "2d0" = .error error ∧ error.positions.length = 1 := by
  obtain ⟨-, -, -, -, -, -, hplaced, -, -⟩ := accessors_see_through_one_position twiceLocated
  obtain ⟨-, -, -, -, -, -, -, hlayered, -⟩ := accessors_see_through_one_position
    (FormulaError.layered [.placed 3, .written 1, .placed 2] (.unrecognized "x"))
  obtain ⟨-, hpositions⟩ :=
    hlayered (.unrecognized "x") (.placed 3) [.written 1, .placed 2] rfl rfl
  have hrefused : ((Formula.ofText "2d0").map Formula.text).toOption = none := by decide +kernel
  refine ⟨hpositions, hplaced (Option.some_ne_none 0) [7, 8], ?_⟩
  cases hread : Formula.ofText "2d0" with
  | error error =>
    obtain ⟨-, -, -, -, -, -, -, -, hreading⟩ := accessors_see_through_one_position error
    exact ⟨error, rfl, hreading _ _ hread⟩
  | ok formula =>
    rw [hread] at hrefused
    cases hrefused

/-- The inner error still has a position, and the fault is not found. -/
theorem fault_hidden_under_two_positions :
    twiceLocated.core = .die .zeroCount ∧ twiceLocated.inner.position? = some 1 ∧
      twiceLocated.dieError? = none ∧
      ¬∀ error : FormulaError, error.inner.position? = none ∧
        ∀ fault, error.core = .die fault → error.dieError? = some fault := by
  refine ⟨rfl, rfl, rfl, fun h => ?_⟩
  obtain ⟨hinner, -⟩ := h twiceLocated
  cases hinner

end DiceNotation
