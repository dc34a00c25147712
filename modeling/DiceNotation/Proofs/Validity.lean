import DiceNotation.Proofs.Coverage
import DiceNotation.Proofs.Decoding
import DiceNotation.Proofs.Extremes

/-!
Only valid dice and terms exist, and all of them can be made.

* `Die.Sound` and `Term.Sound`: what holds of every die and of every term, however it was made;
* `Succeeds`: a builder makes a value with the parts it is given exactly if these are valid;
* `exists_form_of_ofText`: every term that is read from a text is made of one of its forms;
* `Json.Within`: a JSON value that stands somewhere inside another. Every die that is read, at any
  depth, stands there in the form in which it is written, and is checked by its builder.
-/
namespace DiceNotation
set_option autoImplicit false

open Json

/-! ## Sums of weights -/

/-- The weights added up as 32-bit words, which wrap. -/
def wordTotal (entries : List (Score × Nat)) : UInt32 :=
  entries.foldl (fun sum entry => sum + UInt32.ofNat entry.2) 0

theorem toNat_foldl_weights {entries : List (Score × Nat)} {sum : UInt32}
    (h : sum.toNat + weightTotal entries ≤ 4294967295) :
    (entries.foldl (fun sum entry => sum + UInt32.ofNat entry.2) sum).toNat =
      sum.toNat + weightTotal entries := by
  induction entries generalizing sum with
  | nil => rfl
  | cons entry more ih =>
    rw [weightTotal] at h ⊢
    -- No sum on the way exceeds the whole one, which is a word.
    have hnext : (sum + UInt32.ofNat entry.2).toNat = sum.toNat + entry.2 := by
      rw [UInt32.toNat_add, UInt32.toNat_ofNat', Nat.add_mod_mod, Nat.mod_eq_of_lt (by omega)]
    rw [List.foldl_cons, ih (by omega), hnext]
    omega

theorem WeightTable.toNat_wordTotal (table : WeightTable) :
    (wordTotal table.entries).toNat = table.total := by
  have hfits : (0 : UInt32).toNat + weightTotal table.entries ≤ 4294967295 := by
    rw [UInt32.toNat_zero, Nat.zero_add]
    exact table.total_le
  exact (toNat_foldl_weights hfits).trans (Nat.zero_add _)

/-! ## What holds of every die and term -/

structure Die.Sound (die : Die) : Prop where
  valid : die.plain.Valid
  /-- Adding up the weights of a table does not wrap. -/
  exact_total : ∀ table, die = .weighted table → (wordTotal table.entries).toNat = table.total
  /-- The sums that a table looks numbers up in are those of its weights. -/
  index : ∀ table, die = .weighted table → table.index.Indexes table.entries
  least_mem : die.least ∈ die.possibleValues
  least_le : ∀ value ∈ die.possibleValues, die.least ≤ value
  greatest_mem : die.greatest ∈ die.possibleValues
  le_greatest : ∀ value ∈ die.possibleValues, value ≤ die.greatest

structure Term.Sound (term : Term) : Prop where
  count_pos : 1 ≤ term.count
  count_le : term.count ≤ 10000
  count_eq_one : term.die.isConstant = true → term.count = 1
  die : term.die.Sound

theorem Die.sound (die : Die) : die.Sound where
  valid := die.valid_plain
  exact_total table _ := table.toNat_wordTotal
  index table _ := table.indexes
  least_mem := die.least_mem
  least_le _ := Die.least_le
  greatest_mem := die.greatest_mem
  le_greatest _ := Die.le_greatest

theorem Term.sound (term : Term) : term.Sound where
  count_pos := term.count_pos
  count_le := term.count_le
  count_eq_one := term.count_eq_one
  die := term.die.sound

/-! ## What the builders accept -/

/-- Under a condition a builder makes something, and otherwise nothing. What it makes is as told. -/
def Succeeds {ε α : Type} (made : Except ε α) (condition : Prop) (Told : α → Prop) : Prop :=
  (∀ a, made = .ok a → condition ∧ Told a) ∧ (condition → ∃ a, made = .ok a)

theorem succeeds_ofFaces (given : Score) :
    Succeeds (Die.ofFaces given) (1 ≤ given.toInt)
      fun die => die.plain = .standard given.toInt.toNat := by
  constructor
  · intro die hdie
    obtain ⟨faces, rfl, hgiven⟩ := ofFaces_eq_ok_iff.mp hdie
    have hpos := faces.pos
    rw [hgiven]
    exact ⟨by omega, rfl⟩
  · intro hone
    have hle := given.le
    exact ⟨_, ofFaces_eq_ok_iff.mpr ⟨⟨given.toInt.toNat, by omega, by omega⟩, rfl,
      (Int.toNat_of_nonneg (by omega)).symm⟩⟩

theorem succeeds_ofValues (values : List Score) :
    Succeeds (Die.ofValues values) (values ≠ [])
      fun die => die.plain = .custom (values.map Score.toInt) := by
  constructor
  · intro die hdie
    obtain ⟨list, rfl, rfl⟩ := ofValues_eq_ok_iff.mp hdie
    exact ⟨list.nonempty, rfl⟩
  · intro hne
    exact ⟨_, ofValues_eq_ok_iff.mpr ⟨.ofNonempty values hne, rfl, rfl⟩⟩

theorem succeeds_ofEntries (entries : List (Score × Nat)) :
    Succeeds (Die.ofEntries entries)
      (entries ≠ [] ∧ (∀ entry ∈ entries, 1 ≤ entry.2) ∧ weightTotal entries ≤ 4294967295)
      fun die => die.plain = .weighted (entries.map fun entry => (entry.1.toInt, entry.2)) := by
  constructor
  · intro die hdie
    obtain ⟨table, rfl, rfl⟩ := ofEntries_eq_ok_iff.mp hdie
    exact ⟨⟨table.nonempty, table.positive, table.total_le⟩, rfl⟩
  · rintro ⟨hne, hpos, hle⟩
    have htotal : (WeightIndex.ofEntries entries).total ≤ WeightTable.maxTotal := by
      rw [WeightIndex.total_ofEntries]
      exact hle
    exact ⟨_, ofEntries_eq_ok_iff.mpr ⟨.ofPositive entries hne hpos htotal, rfl, rfl⟩⟩

theorem succeeds_make (sign : Sign) (count : Nat) (die : Die) :
    Succeeds (Term.make sign count die)
      (1 ≤ count ∧ count ≤ 10000 ∧ (die.isConstant = true → count = 1))
      fun term => term.sign = sign ∧ term.count = count ∧ term.die = die := by
  constructor
  · intro term hterm
    obtain ⟨rfl, rfl, rfl⟩ := make_eq_ok_iff.mp hterm
    exact ⟨⟨term.count_pos, term.count_le, term.count_eq_one⟩, rfl, rfl, rfl⟩
  · rintro ⟨hpos, hle, hone⟩
    exact ⟨⟨sign, count, die, hpos, hle, hone⟩, make_eq_ok_iff.mpr ⟨rfl, rfl, rfl⟩⟩

theorem succeeds_termOfFaces (sign : Sign) (count : Nat) (given : Score) :
    Succeeds (Term.ofFaces sign count given) (1 ≤ given.toInt ∧ 1 ≤ count ∧ count ≤ 10000)
      fun term => term.plain = ⟨sign, count, .standard given.toInt.toNat⟩ := by
  constructor
  · intro term hterm
    obtain ⟨rfl, rfl, hdie⟩ := termOfFaces_eq_ok_iff.mp hterm
    obtain ⟨hone, hplain⟩ := (succeeds_ofFaces given).1 _ (ofFaces_eq_ok_iff.mpr hdie)
    exact ⟨⟨hone, term.count_pos, term.count_le⟩, congrArg (PlainTerm.mk _ _) hplain⟩
  · rintro ⟨hone, hpos, hle⟩
    obtain ⟨die, hdie⟩ := (succeeds_ofFaces given).2 hone
    obtain ⟨faces, rfl, hgiven⟩ := ofFaces_eq_ok_iff.mp hdie
    exact ⟨⟨sign, count, .standard faces, hpos, hle, fun h => (by cases h)⟩,
      termOfFaces_eq_ok_iff.mpr ⟨rfl, rfl, faces, rfl, hgiven⟩⟩

/-! ## What is read from texts -/

theorem exists_form_of_ofText {text : String} {options : ReadOptions} {formula : Formula}
    (h : Formula.ofText text options = .ok formula) :
    ∀ term ∈ formula.terms, ∃ form ∈ (segments (lexemes text.toList)).flatMap Segment.forms,
      form.term options.maxCount = .ok term := by
  intro term hterm
  rw [ofText_eq] at h
  have hplain := List.mem_map_of_mem (f := Term.plain) hterm
  rw [plain_terms_of_ofSegments h] at hplain
  obtain ⟨form, hform, heq⟩ := List.mem_map.mp hplain
  exact ⟨form, hform, TermForm.term_eq_ok_iff.mpr heq.symm⟩

/-! ## What is read from JSON -/

theorem exists_mem_of_forall₂ {α : Type} {R : Json → α → Prop} {items : List Json} {parts : List α}
    (h : List.Forall₂ R items parts) : ∀ part ∈ parts, ∃ item ∈ items, R item part := by
  induction h with
  | nil => exact List.forall_mem_nil _
  | cons hfirst _ ih =>
    refine List.forall_mem_cons.mpr ⟨⟨_, List.mem_cons_self, hfirst⟩, fun part hpart => ?_⟩
    obtain ⟨item, hitem, hread⟩ := ih part hpart
    exact ⟨item, List.mem_cons_of_mem _ hitem, hread⟩

namespace Json

/-- A value stands somewhere inside another, or is that value. -/
inductive Within (part : Json) : Json → Prop
  | self : Within part part
  | item {items : List Json} {item : Json} (hitem : item ∈ items) (h : Within part item) :
    Within part (.array items)
  | field {fields : List (String × Json)} {key : String} {value : Json}
    (hfield : (key, value) ∈ fields) (h : Within part value) : Within part (.object fields)

theorem Within.trans {a b c : Json} (hab : a.Within b) (hbc : b.Within c) : a.Within c := by
  induction hbc with
  | self => exact hab
  | item hitem _ ih => exact .item hitem ih
  | field hfield _ ih => exact .field hfield ih

theorem exists_within_of_asList {α : Type} {decode : Decoder α} {json : Json} {parts : List α}
    (h : asList decode json = .ok parts) :
    ∀ part ∈ parts, ∃ item : Json, item.Within json ∧ decode item = .ok part := by
  obtain ⟨items, rfl, hitems⟩ := asList_eq_ok_iff.mp h
  intro part hpart
  obtain ⟨item, hitem, hread⟩ := exists_mem_of_forall₂ hitems part hpart
  exact ⟨item, .item hitem .self, hread⟩

/-- What a record holds in a field stands inside its JSON, unless the field may be left out. -/
theorem Shows.exists_within {json : Json} {record : List Field} (h : json.Shows record)
    {field : Field} (hfield : field ∈ record) (hneeded : ¬field.Optional) :
    ∃ part : Json, part.Within json ∧ field.Reads part := by
  cases json with
  | object fields =>
    rcases h field hfield with ⟨value, hvalue, hread⟩ | ⟨-, hoptional⟩
    · have hmem : value ∈ valuesAt fields field.key := hvalue ▸ List.mem_singleton_self value
      exact ⟨value, .field (mem_of_mem_valuesAt hmem) .self, hread⟩
    · exact absurd hoptional hneeded
  | array items =>
    obtain ⟨item, hitem, hread⟩ := exists_mem_of_forall₂ h field hfield
    exact ⟨item, .item hitem .self, hread⟩
  | _ => exact h.elim

end Json

section Reading
variable {json : Json}

theorem DieRoll.die_within {roll : DieRoll} (h : DieRoll.ofJson json = .ok roll) :
    roll.die.toJson.Within json := by
  have hshows := DieRoll.ofJson_eq_ok_iff.mp h
  obtain ⟨part, hpart, hread⟩ := hshows.exists_within (.head _) id
  rw [← (roll.die.readsOnly part).mp hread]
  exact hpart

theorem Outcome.die_within {outcome : Outcome} (h : Outcome.ofJson json = .ok outcome) :
    ∀ roll ∈ outcome.rolls, roll.die.toJson.Within json := by
  intro roll hroll
  have hshows := Outcome.ofJson_eq_ok_iff.mp h
  obtain ⟨part, hpart, hread⟩ := hshows.exists_within (.tail _ (.head _)) id
  obtain ⟨item, hitem, hread⟩ := exists_within_of_asList hread roll hroll
  exact (DieRoll.die_within hread).trans (hitem.trans hpart)

theorem asOption_eq_ok_some {α : Type} {decode : Decoder α} {part : α}
    (h : asOption decode json = .ok (some part)) : decode json = .ok part := by
  unfold asOption at h
  split at h
  · cases h
  · obtain ⟨a, ha, heq⟩ := map_eq_ok.mp h
    cases heq
    exact ha

/-- The rolls of both outcomes. -/
def ModeOutcome.rolls (outcome : ModeOutcome) : List DieRoll :=
  outcome.primary.rolls ++ outcome.secondary.elim [] Outcome.rolls

theorem ModeOutcome.die_within {outcome : ModeOutcome}
    (h : ModeOutcome.ofJson json = .ok outcome) :
    ∀ roll ∈ outcome.rolls, roll.die.toJson.Within json := by
  intro roll hroll
  have hshows := ModeOutcome.ofJson_eq_ok_iff.mp h
  rcases List.mem_append.mp hroll with hprimary | hsecondary
  · obtain ⟨part, hpart, hread⟩ := hshows.exists_within (.tail _ (.head _)) id
    exact (Outcome.die_within hread roll hprimary).trans hpart
  · cases hsome : outcome.secondary with
    | none =>
      rw [hsome] at hsecondary
      cases hsecondary
    | some second =>
      rw [hsome] at hsecondary
      have hneeded : outcome.secondary ≠ none := by
        rw [hsome]
        exact Option.some_ne_none second
      obtain ⟨part, hpart, hread⟩ :=
        hshows.exists_within (.tail _ (.tail _ (.head _))) hneeded
      rw [Field.reads_optional, hsome] at hread
      exact (Outcome.die_within (asOption_eq_ok_some hread) roll hsecondary).trans hpart

theorem Formula.term_within {formula : Formula} (h : Formula.ofJson json = .ok formula) :
    ∀ term ∈ formula.terms, ∃ part : Json, part.Within json ∧ Term.ofJson part = .ok term := by
  intro term hterm
  have hshows := Formula.ofJson_eq_ok_iff.mp h
  obtain ⟨part, hpart, hread⟩ := hshows.exists_within (.head _) id
  obtain ⟨item, hitem, hread⟩ := exists_within_of_asList hread term hterm
  exact ⟨item, hitem.trans hpart, hread⟩

end Reading

/-! ## The whole -/

/-- Whatever made them, all dice and terms are sound, and the builders refuse nothing that is valid.
Nothing is read around them: terms in texts are made of forms, a die is read from its own JSON only
and a term from the records of its parts, and so are those inside rolls and formulas. -/
theorem made_exactly_valid :
    (∀ die : Die, die.Sound) ∧
    (∀ term : Term, term.Sound) ∧
    (∀ given, Succeeds (Die.ofFaces given) (1 ≤ given.toInt)
      fun die => die.plain = .standard given.toInt.toNat) ∧
    (∀ values, Succeeds (Die.ofValues values) (values ≠ [])
      fun die => die.plain = .custom (values.map Score.toInt)) ∧
    (∀ entries, Succeeds (Die.ofEntries entries)
      (entries ≠ [] ∧ (∀ entry ∈ entries, 1 ≤ entry.2) ∧ weightTotal entries ≤ 4294967295)
      fun die => die.plain = .weighted (entries.map fun entry => (entry.1.toInt, entry.2))) ∧
    (∀ sign count die, Succeeds (Term.make sign count die)
      (1 ≤ count ∧ count ≤ 10000 ∧ (die.isConstant = true → count = 1))
      fun term => term.sign = sign ∧ term.count = count ∧ term.die = die) ∧
    (∀ sign count given, Succeeds (Term.ofFaces sign count given)
      (1 ≤ given.toInt ∧ 1 ≤ count ∧ count ≤ 10000)
      fun term => term.plain = ⟨sign, count, .standard given.toInt.toNat⟩) ∧
    (∀ text options formula, Formula.ofText text options = .ok formula →
      ∀ term ∈ formula.terms, ∃ form ∈ (segments (lexemes text.toList)).flatMap Segment.forms,
        form.term options.maxCount = .ok term) ∧
    (∀ json die, Die.ofJson json = .ok die ↔ json = die.toJson) ∧
    (∀ json term, Term.ofJson json = .ok term ↔ json.Shows term.record) ∧
    (∀ json roll, DieRoll.ofJson json = .ok roll → roll.die.toJson.Within json) ∧
    (∀ json outcome, Outcome.ofJson json = .ok outcome →
      ∀ roll ∈ outcome.rolls, roll.die.toJson.Within json) ∧
    (∀ json outcome, ModeOutcome.ofJson json = .ok outcome →
      ∀ roll ∈ outcome.rolls, roll.die.toJson.Within json) ∧
    ∀ json formula, Formula.ofJson json = .ok formula →
      ∀ term ∈ formula.terms, ∃ part : Json, part.Within json ∧ Term.ofJson part = .ok term :=
  ⟨Die.sound, Term.sound, succeeds_ofFaces, succeeds_ofValues, succeeds_ofEntries, succeeds_make,
    succeeds_termOfFaces, fun _ _ _ => exists_form_of_ofText, fun json die => die.readsOnly json,
    fun _ _ => Term.ofJson_eq_ok_iff, fun _ _ => DieRoll.die_within, fun _ _ => Outcome.die_within,
    fun _ _ => ModeOutcome.die_within, fun _ _ => Formula.term_within⟩

/-- A formula with two weighted dice, whose records are arrays. -/
def weightedRows : Json :=
  .array [.array [.array [.string "Minus", .integer 2,
      .object [("Weighted", .array [.array [.integer 1, .integer 3],
        .array [.integer 6, .integer 1]])]]],
    .array [], .integer 0, .integer 0]

theorem made_exactly_valid_weightedRows : ∃ formula, Formula.ofJson weightedRows = .ok formula ∧
    formula.text = "-2d[1:3,6:1]" ∧
    ∀ term ∈ formula.terms, term.Sound ∧
      ∃ part : Json, part.Within weightedRows ∧ Term.ofJson part = .ok term := by
  have htext : ((Formula.ofJson weightedRows).map Formula.text).toOption = some "-2d[1:3,6:1]" := by
    decide +kernel
  cases hread : Formula.ofJson weightedRows with
  | error error =>
    rw [hread] at htext
    cases htext
  | ok formula =>
    rw [hread] at htext
    obtain ⟨-, hsound, -, -, -, -, -, -, -, -, -, -, -, hwithin⟩ := made_exactly_valid
    refine ⟨formula, rfl, Option.some.inj htext, fun term hterm => ?_⟩
    exact ⟨hsound term, hwithin weightedRows formula hread term hterm⟩

end DiceNotation
