import DiceNotation.Formula
import DiceNotation.Proofs.Decoding

/-!
Reading back what is written as JSON.

Dice, signs, terms, modes and rolls are read back as they were. The offsets and counters of a
formula are written as 64-bit words, so a formula and its diagnostics are read back if these fit
(`Diagnostic.FitsWord`, `Formula.FitsWord`), as they do for every text a machine can hold. Of a die
only the values or the entries are written. The builder that reads it finds the least and greatest
value and the index again, and they are the same since the entries are (`FaceList.ext_values`,
`WeightTable.ext_entries`).

* `asList_map`: a list is read back if its items are;
* `ofJson_toJson`, for each of the nine types; records by their `ofJson_eq_ok_iff`;
* `json_restores`: all of them, with what a restored die shows and draws.
-/
namespace DiceNotation
set_option autoImplicit false

open Json

/-! ## Lists and words -/

theorem asList_map {α : Type} {decode : Decoder α} {encode : α → Json} {parts : List α}
    (h : ∀ part ∈ parts, decode (encode part) = .ok part) :
    asList decode (.array (parts.map encode)) = .ok parts := by
  refine asList_eq_ok_iff.mpr ⟨_, rfl, ?_⟩
  rw [List.forall₂_map_left_iff, List.forall₂_same]
  exact h

theorem word32_natCast {n : Nat} (h : n ≤ 4294967295) : word32 (.integer n) = .ok n :=
  (word32_readsOnly h _).mpr rfl

theorem word64_natCast {n : Nat} (h : n ≤ 18446744073709551615) : word64 (.integer n) = .ok n :=
  (word64_readsOnly h _).mpr rfl

theorem Score.ofJson_toJson (score : Score) : Score.ofJson score.toJson = .ok score :=
  (score.readsOnly _).mpr rfl

/-! ## Dice and terms -/

theorem Die.ofJson_toJson (die : Die) : Die.ofJson die.toJson = .ok die :=
  (die.readsOnly _).mpr rfl

theorem Sign.ofJson_toJson (sign : Sign) : Sign.ofJson sign.toJson = .ok sign := by
  cases sign <;> rfl

theorem Mode.ofJson_toJson (mode : Mode) : Mode.ofJson mode.toJson = .ok mode := by
  cases mode <;> rfl

theorem Term.ofJson_toJson (term : Term) : Term.ofJson term.toJson = .ok term := by
  have hcount : term.count ≤ 4294967295 := Nat.le_trans term.count_le (by decide)
  simp only [Term.ofJson_eq_ok_iff, Term.toJson, Shows, Term.record, List.forall_mem_cons]
  exact ⟨.inl ⟨_, rfl, term.sign.ofJson_toJson⟩, .inl ⟨_, rfl, word32_natCast hcount⟩,
    .inl ⟨_, rfl, term.die.ofJson_toJson⟩, List.forall_mem_nil _⟩

/-! ## Rolls -/

theorem DieRoll.ofJson_toJson (roll : DieRoll) : DieRoll.ofJson roll.toJson = .ok roll := by
  simp only [DieRoll.ofJson_eq_ok_iff, DieRoll.toJson, Shows, DieRoll.record, List.forall_mem_cons]
  exact ⟨.inl ⟨_, rfl, roll.die.ofJson_toJson⟩, .inl ⟨_, rfl, roll.value.ofJson_toJson⟩,
    .inl ⟨_, rfl, roll.sign.ofJson_toJson⟩, List.forall_mem_nil _⟩

theorem Outcome.ofJson_toJson (outcome : Outcome) :
    Outcome.ofJson outcome.toJson = .ok outcome := by
  have hrolls := asList_map fun roll (_ : roll ∈ outcome.rolls) => roll.ofJson_toJson
  simp only [Outcome.ofJson_eq_ok_iff, Outcome.toJson, Shows, Outcome.record, List.forall_mem_cons]
  exact ⟨.inl ⟨_, rfl, outcome.total.ofJson_toJson⟩, .inl ⟨_, rfl, hrolls⟩,
    .inl ⟨_, rfl, outcome.maxTotal.ofJson_toJson⟩, .inl ⟨_, rfl, rfl⟩, List.forall_mem_nil _⟩

/-- No outcome is written as null, which stands for none. -/
theorem asOption_elim (secondary : Option Outcome) :
    asOption Outcome.ofJson (secondary.elim .null Outcome.toJson) = .ok secondary := by
  cases secondary with
  | none => rfl
  | some outcome => exact map_eq_ok.mpr ⟨outcome, outcome.ofJson_toJson, rfl⟩

theorem ModeOutcome.ofJson_toJson (outcome : ModeOutcome) :
    ModeOutcome.ofJson outcome.toJson = .ok outcome := by
  simp only [ModeOutcome.ofJson_eq_ok_iff, ModeOutcome.toJson, Shows, ModeOutcome.record,
    List.forall_mem_cons]
  exact ⟨.inl ⟨_, rfl, outcome.mode.ofJson_toJson⟩, .inl ⟨_, rfl, outcome.primary.ofJson_toJson⟩,
    .inl ⟨_, rfl, asOption_elim outcome.secondary⟩, List.forall_mem_nil _⟩

/-! ## Formulas -/

def Diagnostic.FitsWord (diagnostic : Diagnostic) : Prop :=
  diagnostic.position ≤ 18446744073709551615

structure Formula.FitsWord (formula : Formula) : Prop where
  diagnostics : ∀ diagnostic ∈ formula.diagnostics, diagnostic.FitsWord
  recognized : formula.recognized ≤ 18446744073709551615
  skipped : formula.skipped ≤ 18446744073709551615

theorem Diagnostic.ofBody_toJson {diagnostic : Diagnostic} (h : diagnostic.FitsWord) :
    Diagnostic.ofBody diagnostic.kind (some (.object [("position", .integer diagnostic.position),
      ("text", .string diagnostic.text)])) = .ok diagnostic := by
  have hposition : word64 (.integer diagnostic.position) = .ok diagnostic.position :=
    word64_natCast h
  simp only [Diagnostic.ofBody, bind_eq_ok, present_eq_ok, pure_eq_ok]
  exact ⟨_, field?_eq_ok_some.mpr ⟨_, rfl, hposition⟩, _, field?_eq_ok_some.mpr ⟨_, rfl, rfl⟩,
    _, rfl, _, rfl, rfl⟩

theorem Diagnostic.ofJson_toJson {diagnostic : Diagnostic} (h : diagnostic.FitsWord) :
    Diagnostic.ofJson diagnostic.toJson = .ok diagnostic := by
  have hbody := ofBody_toJson h
  obtain ⟨kind, position, text⟩ := diagnostic
  cases kind <;> exact hbody

theorem Formula.ofJson_toJson {formula : Formula} (h : formula.FitsWord) :
    Formula.ofJson formula.toJson = .ok formula := by
  have hterms := asList_map fun term (_ : term ∈ formula.terms) => term.ofJson_toJson
  have hdiagnostics := asList_map fun diagnostic hmem =>
    Diagnostic.ofJson_toJson (h.diagnostics diagnostic hmem)
  simp only [Formula.ofJson_eq_ok_iff, Formula.toJson, Shows, Formula.record, List.forall_mem_cons]
  exact ⟨.inl ⟨_, rfl, hterms⟩, .inl ⟨_, rfl, hdiagnostics⟩,
    .inl ⟨_, rfl, word64_natCast h.recognized⟩, .inl ⟨_, rfl, word64_natCast h.skipped⟩,
    List.forall_mem_nil _⟩

/-! ## All of them -/

/-- Every value is read back from its JSON, and a die that is read back has the same least and
greatest value and draws the same values from all words. -/
theorem json_restores :
    (∀ die : Die, ∃ restored, Die.ofJson die.toJson = .ok restored ∧ restored = die ∧
      restored.least = die.least ∧ restored.greatest = die.greatest ∧
      ∀ words, restored.draw words = die.draw words) ∧
    (∀ sign : Sign, Sign.ofJson sign.toJson = .ok sign) ∧
    (∀ term : Term, Term.ofJson term.toJson = .ok term) ∧
    (∀ mode : Mode, Mode.ofJson mode.toJson = .ok mode) ∧
    (∀ roll : DieRoll, DieRoll.ofJson roll.toJson = .ok roll) ∧
    (∀ outcome : Outcome, Outcome.ofJson outcome.toJson = .ok outcome) ∧
    (∀ outcome : ModeOutcome, ModeOutcome.ofJson outcome.toJson = .ok outcome) ∧
    (∀ diagnostic : Diagnostic, diagnostic.FitsWord →
      Diagnostic.ofJson diagnostic.toJson = .ok diagnostic) ∧
    ∀ formula : Formula, formula.FitsWord → Formula.ofJson formula.toJson = .ok formula := by
  refine ⟨fun die => ⟨die, die.ofJson_toJson, rfl, rfl, rfl, fun _ => rfl⟩, Sign.ofJson_toJson,
    Term.ofJson_toJson, Mode.ofJson_toJson, DieRoll.ofJson_toJson, Outcome.ofJson_toJson,
    ModeOutcome.ofJson_toJson, ?_, ?_⟩
  · intro diagnostic h
    exact Diagnostic.ofJson_toJson h
  · intro formula h
    exact Formula.ofJson_toJson h

/-- The lowest score is subtracted, and all counters are full. -/
def fullFormula : Formula where
  terms := [Term.flat .minus .lowest]
  diagnostics := [⟨.saturated, 18446744073709551615, "2147483649"⟩]
  recognized := 18446744073709551615
  skipped := 18446744073709551615

theorem json_restores_fullFormula :
    fullFormula.FitsWord ∧ Formula.ofJson fullFormula.toJson = .ok fullFormula := by
  have hfits : fullFormula.FitsWord := by
    refine ⟨?_, Nat.le_refl _, Nat.le_refl _⟩
    exact List.forall_mem_singleton.mpr (Nat.le_refl _)
  obtain ⟨-, -, -, -, -, -, -, -, hformula⟩ := json_restores
  exact ⟨hfits, hformula fullFormula hfits⟩

end DiceNotation
