import DiceNotation.Json.Reading
import DiceNotation.Proofs.Building
import Mathlib.Data.List.Forall2

/-!
Which JSON is read as what.

* `item_eq_ok`, `field?_eq_ok_some` and the like: how the steps of a reader succeed;
* `asList_eq_ok_iff`: a list is read item by item;
* `ReadsOnly`: a value is read from the JSON that is written for it and from nothing else. Scores,
  words and dice are;
* `Json.Shows`: the two ways to write a record, as an object that holds its fields and as an array
  of them. `Term.ofJson_eq_ok_iff` and its like tell which records are read, field by field.
-/
namespace DiceNotation
set_option autoImplicit false

open Json

/-! ## Steps of a reader -/

section Steps
variable {α β : Type}

theorem map_eq_ok {result : Except DecodeError α} {f : α → β} {b : β} :
    f <$> result = .ok b ↔ ∃ a, result = .ok a ∧ f a = b := by
  cases result with
  | error error => simp [Functor.map, Except.map]
  | ok a => simp [Functor.map, Except.map]

theorem pure_eq_ok {a b : α} : (pure a : Except DecodeError α) = .ok b ↔ a = b := by
  show (Except.ok a : Except DecodeError α) = .ok b ↔ a = b
  rw [Except.ok.injEq]

theorem present_eq_ok {found : Option α} {part : α} :
    present found = .ok part ↔ found = some part := by
  cases found <;> simp [present]

theorem item_eq_ok {decode : Decoder α} {items : List Json} {read : α × List Json} :
    item decode items = .ok read ↔
      ∃ first, items = first :: read.2 ∧ decode first = .ok read.1 := by
  obtain ⟨part, rest⟩ := read
  cases items with
  | nil => simp [item]
  | cons first more =>
    rw [item, bind_eq_ok]
    constructor
    · rintro ⟨found, hfound, h⟩
      cases h
      exact ⟨first, rfl, hfound⟩
    · rintro ⟨found, hitems, hfound⟩
      cases hitems
      exact ⟨part, hfound, rfl⟩

theorem noMore_eq_ok {items : List Json} {read : Unit} : noMore items = .ok read ↔ items = [] := by
  cases items <;> simp [noMore]

theorem field?_eq_ok_some {fields : List (String × Json)} {key : String} {decode : Decoder α}
    {part : α} :
    field? fields key decode = .ok (some part) ↔
      ∃ value, valuesAt fields key = [value] ∧ decode value = .ok part := by
  rw [field?]
  match valuesAt fields key with
  | [] => simp
  | [value] => simp [map_eq_ok]
  | _ :: _ :: _ => simp

theorem field?_eq_ok_none {fields : List (String × Json)} {key : String} {decode : Decoder α} :
    field? fields key decode = .ok none ↔ valuesAt fields key = [] := by
  rw [field?]
  match valuesAt fields key with
  | [] => simp
  | [value] => simp [map_eq_ok]
  | _ :: _ :: _ => simp

theorem mem_of_mem_valuesAt {fields : List (String × Json)} {key : String} {value : Json}
    (h : value ∈ valuesAt fields key) : (key, value) ∈ fields := by
  obtain ⟨field, hfield, rfl⟩ := List.mem_map.mp h
  obtain ⟨hmem, hkey⟩ := List.mem_filter.mp hfield
  rw [← eq_of_beq hkey]
  exact hmem

theorem mapM_eq_ok_iff {decode : Decoder α} {items : List Json} {parts : List α} :
    items.mapM decode = .ok parts ↔
      List.Forall₂ (fun item part => decode item = .ok part) items parts := by
  induction items generalizing parts with
  | nil =>
    rw [List.forall₂_nil_left_iff]
    exact ⟨fun h => (Except.ok.inj h).symm, fun h => h ▸ rfl⟩
  | cons item more ih =>
    rw [List.mapM_cons, bind_eq_ok, List.forall₂_cons_left_iff]
    simp only [bind_eq_ok, ih]
    constructor
    · rintro ⟨part, hpart, others, hothers, h⟩
      cases h
      exact ⟨part, others, hpart, hothers, rfl⟩
    · rintro ⟨part, others, hpart, hothers, rfl⟩
      exact ⟨part, hpart, others, hothers, rfl⟩

theorem asList_eq_ok_iff {decode : Decoder α} {json : Json} {parts : List α} :
    asList decode json = .ok parts ↔
      ∃ items, json = .array items ∧
        List.Forall₂ (fun item part => decode item = .ok part) items parts := by
  cases json with
  | array items => simp [asList, mapM_eq_ok_iff]
  | _ => simp [asList]

end Steps

/-! ## Values that are read from one JSON only -/

/-- A value is read from the JSON that is written for it, and from nothing else. -/
def ReadsOnly {α : Type} (decode : Decoder α) (encode : α → Json) (value : α) : Prop :=
  ∀ json, decode json = .ok value ↔ json = encode value

theorem asList_readsOnly {α : Type} {decode : Decoder α} {encode : α → Json} {parts : List α}
    (h : ∀ part ∈ parts, ReadsOnly decode encode part) :
    ReadsOnly (asList decode) (fun parts => .array (parts.map encode)) parts := by
  have hitems : ∀ items, List.Forall₂ (fun item part => decode item = .ok part) items parts ↔
      items = parts.map encode := by
    induction parts with
    | nil => simp
    | cons part more ih =>
      obtain ⟨hpart, hmore⟩ := List.forall_mem_cons.mp h
      intro items
      rw [List.forall₂_cons_right_iff, List.map_cons]
      simp only [hpart _, ih hmore _]
      constructor
      · rintro ⟨_, _, rfl, rfl, rfl⟩
        rfl
      · rintro rfl
        exact ⟨_, _, rfl, rfl, rfl⟩
  intro json
  simp only [asList_eq_ok_iff, hitems, exists_eq_right]

theorem Score.readsOnly (score : Score) : ReadsOnly Score.ofJson Score.toJson score := by
  intro json
  cases json with
  | integer value =>
    rw [Score.ofJson, present_eq_ok, Score.ofInt?, Score.toJson, Json.integer.injEq]
    constructor
    · intro h
      split at h
      · cases h
        rfl
      · cases h
    · rintro rfl
      exact dif_pos ⟨score.ge, score.le⟩
  | _ => simp [Score.ofJson, Score.toJson]

theorem integerIn_eq_ok_iff {lo hi n : Int} {json : Json} :
    integerIn lo hi json = .ok n ↔ json = .integer n ∧ lo ≤ n ∧ n ≤ hi := by
  cases json with
  | integer value =>
    rw [integerIn, Json.integer.injEq]
    split
    · next h =>
      rw [Except.ok.injEq]
      exact ⟨fun heq => ⟨heq, heq ▸ h⟩, And.left⟩
    · next h =>
      simp only [reduceCtorEq, false_iff]
      rintro ⟨rfl, hin⟩
      exact h hin
  | _ => simp [integerIn]

theorem word_readsOnly {hi : Int} {n : Nat} (h : n ≤ hi) :
    ReadsOnly (fun value => Int.toNat <$> integerIn 0 hi value) (fun n => .integer n) n := by
  intro json
  simp only [map_eq_ok, integerIn_eq_ok_iff]
  constructor
  · rintro ⟨value, ⟨rfl, hlo, -⟩, rfl⟩
    rw [Int.toNat_of_nonneg hlo]
  · rintro rfl
    exact ⟨n, ⟨rfl, by omega, by omega⟩, Int.toNat_natCast n⟩

theorem word32_readsOnly {n : Nat} (h : n ≤ 4294967295) :
    ReadsOnly word32 (fun n => .integer n) n :=
  word_readsOnly (by omega)

theorem word64_readsOnly {n : Nat} (h : n ≤ 18446744073709551615) :
    ReadsOnly word64 (fun n => .integer n) n :=
  word_readsOnly (by omega)

theorem WeightTable.entry_readsOnly {entry : Score × Nat} (h : entry.2 ≤ 4294967295) :
    ReadsOnly entryOfJson entryToJson entry := by
  obtain ⟨face, weight⟩ := entry
  intro json
  cases json with
  | array items =>
    simp only [entryOfJson, entryToJson, bind_eq_ok, item_eq_ok, noMore_eq_ok, pure_eq_ok,
      Prod.exists, Prod.mk.injEq, Json.array.injEq]
    have hface := face.readsOnly
    have hweight := word32_readsOnly h
    constructor
    · rintro ⟨_, _, ⟨first, rfl, hfirst⟩, _, _, ⟨second, rfl, hsecond⟩, -, rfl, rfl, rfl⟩
      rw [(hface first).mp hfirst, (hweight second).mp hsecond]
    · rintro rfl
      exact ⟨_, _, ⟨_, rfl, (hface _).mpr rfl⟩, _, _, ⟨_, rfl, (hweight _).mpr rfl⟩, (), rfl, rfl,
        rfl⟩
  | _ => simp [entryOfJson, entryToJson]

theorem asKind_eq_ok_some {json body : Json} {name : String} :
    asKind json = .ok (name, some body) ↔ json = .object [(name, body)] := by
  unfold asKind
  split <;> simp_all

/-! ## Dice -/

theorem accept_eq_ok {made : Except DieFlaw Die} {die : Die} :
    Die.accept made = .ok die ↔ made = .ok die :=
  mapError_eq_ok

theorem le_weightTotal {α : Type} {entries : List (α × Nat)} {entry : α × Nat}
    (h : entry ∈ entries) : entry.2 ≤ weightTotal entries := by
  induction entries with
  | nil => cases h
  | cons first more ih =>
    rw [weightTotal]
    rcases List.mem_cons.mp h with rfl | hmore
    · omega
    · have hle := ih hmore
      omega

theorem FaceList.readsOnly (list : FaceList) :
    ReadsOnly (asList Score.ofJson) (fun values => .array (values.map Score.toJson)) list.values :=
  asList_readsOnly fun value _ => value.readsOnly

theorem WeightTable.readsOnly (table : WeightTable) :
    ReadsOnly (asList entryOfJson) (fun entries => .array (entries.map entryToJson))
      table.entries :=
  asList_readsOnly fun _ hentry =>
    entry_readsOnly (Nat.le_trans (le_weightTotal hentry) table.total_le)

theorem Die.readsOnly (die : Die) : ReadsOnly Die.ofJson Die.toJson die := by
  intro json
  simp only [Die.ofJson, bind_eq_ok]
  constructor
  · rintro ⟨kind, hkind, h⟩
    -- The four kinds in the order of the reader, each read back by its own builder, and the rest.
    split at h
    · next body =>
      simp only [bind_eq_ok, accept_eq_ok, ofFaces_eq_ok_iff] at h
      obtain ⟨given, hgiven, faces, rfl, hfaces⟩ := h
      rw [asKind_eq_ok_some.mp hkind, (given.readsOnly body).mp hgiven, Score.toJson, hfaces]
      rfl
    · next body =>
      simp only [bind_eq_ok, accept_eq_ok, ofValues_eq_ok_iff] at h
      obtain ⟨values, hvalues, list, rfl, rfl⟩ := h
      rw [asKind_eq_ok_some.mp hkind, (list.readsOnly body).mp hvalues]
      rfl
    · next body =>
      simp only [bind_eq_ok, accept_eq_ok, ofEntries_eq_ok_iff] at h
      obtain ⟨entries, hentries, table, rfl, rfl⟩ := h
      rw [asKind_eq_ok_some.mp hkind, (table.readsOnly body).mp hentries]
      rfl
    · next body =>
      simp only [bind_eq_ok, pure_eq_ok] at h
      obtain ⟨value, hvalue, rfl⟩ := h
      rw [asKind_eq_ok_some.mp hkind, (value.readsOnly body).mp hvalue]
      rfl
    · cases h
  · rintro rfl
    cases die with
    | standard faces =>
      have hfaces : Die.ofFaces (standard faces).greatest = .ok (.standard faces) :=
        ofFaces_eq_ok_iff.mpr ⟨faces, rfl, rfl⟩
      exact ⟨_, rfl, bind_eq_ok.mpr ⟨_, (Score.readsOnly _ _).mpr rfl, accept_eq_ok.mpr hfaces⟩⟩
    | custom list =>
      have hlist := ofValues_eq_ok_iff.mpr ⟨list, rfl, rfl⟩
      exact ⟨_, rfl, bind_eq_ok.mpr ⟨_, (list.readsOnly _).mpr rfl, accept_eq_ok.mpr hlist⟩⟩
    | weighted table =>
      have htable := ofEntries_eq_ok_iff.mpr ⟨table, rfl, rfl⟩
      exact ⟨_, rfl, bind_eq_ok.mpr ⟨_, (table.readsOnly _).mpr rfl, accept_eq_ok.mpr htable⟩⟩
    | constant value =>
      exact ⟨_, rfl, bind_eq_ok.mpr ⟨_, (value.readsOnly _).mpr rfl, rfl⟩⟩

/-! ## Records -/

namespace Json

/-- What a record holds under one key. -/
structure Field where
  key : String
  Reads : Json → Prop
  /-- Whether an object may lack the key. -/
  Optional : Prop

namespace Field
variable {α : Type} {fields : List (String × Json)} {key : String} {decode : Decoder α} {part : α}
  {Optional : Prop}

def required (key : String) (decode : Decoder α) (part : α) : Field :=
  ⟨key, fun value => decode value = .ok part, False⟩

def optional (key : String) (decode : Decoder α) (part : α) (Optional : Prop) : Field :=
  ⟨key, fun value => decode value = .ok part, Optional⟩

/-- The key stands there once, with what the record holds, or it may be lacking and is. -/
def HeldIn (field : Field) (fields : List (String × Json)) : Prop :=
  (∃ value, valuesAt fields field.key = [value] ∧ field.Reads value) ∨
    (valuesAt fields field.key = [] ∧ field.Optional)

theorem heldIn_required :
    (required key decode part).HeldIn fields ↔ field? fields key decode = .ok (some part) := by
  simp [HeldIn, required, field?_eq_ok_some]

theorem heldIn_optional :
    (optional key decode part Optional).HeldIn fields ↔
      field? fields key decode = .ok (some part) ∨
        (field? fields key decode = .ok none ∧ Optional) := by
  rw [field?_eq_ok_some, field?_eq_ok_none]
  rfl

theorem reads_required {value : Json} :
    (required key decode part).Reads value ↔ decode value = .ok part :=
  Iff.rfl

theorem reads_optional {value : Json} :
    (optional key decode part Optional).Reads value ↔ decode value = .ok part :=
  Iff.rfl

end Field

/-- A record is an object that holds each of its fields, whatever else it holds, or an array of all
fields in their order. -/
def Shows : Json → List Field → Prop
  | .object fields, record => ∀ field ∈ record, field.HeldIn fields
  | .array items, record => List.Forall₂ (fun item field => field.Reads item) items record
  | _, _ => False

end Json

/-! ## Terms, rolls and formulas -/

theorem join_eq_iff {α : Type} {found : Option (Option α)} {part : Option α} :
    found.join = part ↔ found = some part ∨ found = none ∧ part = none := by
  cases found with
  | none => simp [eq_comm]
  | some part => simp

section Records
variable {json : Json}

/-- A sign may be left out where it is a plus. -/
def Term.record (term : Term) : List Field := [
  .optional "sign" Sign.ofJson term.sign (term.sign = .plus),
  .required "count" word32 term.count,
  .required "die" Die.ofJson term.die]

theorem Term.ofJson_eq_ok_iff {term : Term} :
    Term.ofJson json = .ok term ↔ json.Shows term.record := by
  cases json with
  | object fields =>
    simp only [Term.ofJson, bind_eq_ok, present_eq_ok, mapError_eq_ok, make_eq_ok_iff, Shows,
      Term.record, List.forall_mem_cons, Field.heldIn_required, Field.heldIn_optional,
      Option.getD_eq_iff]
    grind
  | array items =>
    simp only [Term.ofJson, bind_eq_ok, item_eq_ok, noMore_eq_ok, mapError_eq_ok, make_eq_ok_iff,
      Shows, Term.record, Prod.exists, List.forall₂_cons_right_iff, List.forall₂_nil_right_iff,
      Field.reads_required, Field.reads_optional]
    grind
  | _ => simp [Term.ofJson, Shows]

def DieRoll.record (roll : DieRoll) : List Field := [
  .required "die" Die.ofJson roll.die,
  .required "value" Score.ofJson roll.value,
  .required "coefficient" Sign.ofJson roll.sign]

theorem DieRoll.ofJson_eq_ok_iff {roll : DieRoll} :
    DieRoll.ofJson json = .ok roll ↔ json.Shows roll.record := by
  obtain ⟨die, value, sign⟩ := roll
  cases json with
  | object fields =>
    simp only [DieRoll.ofJson, bind_eq_ok, present_eq_ok, pure_eq_ok, DieRoll.mk.injEq, Shows,
      DieRoll.record, List.forall_mem_cons, Field.heldIn_required]
    grind
  | array items =>
    simp only [DieRoll.ofJson, bind_eq_ok, item_eq_ok, noMore_eq_ok, pure_eq_ok, DieRoll.mk.injEq,
      Shows, DieRoll.record, Prod.exists, List.forall₂_cons_right_iff, List.forall₂_nil_right_iff,
      Field.reads_required]
    grind
  | _ => simp [DieRoll.ofJson, Shows]

def Outcome.record (outcome : Outcome) : List Field := [
  .required "total" Score.ofJson outcome.total,
  .required "rolls" (asList DieRoll.ofJson) outcome.rolls,
  .required "max_total" Score.ofJson outcome.maxTotal,
  .required "breakdown" asString outcome.breakdown]

theorem Outcome.ofJson_eq_ok_iff {outcome : Outcome} :
    Outcome.ofJson json = .ok outcome ↔ json.Shows outcome.record := by
  obtain ⟨total, rolls, maxTotal, breakdown⟩ := outcome
  cases json with
  | object fields =>
    simp only [Outcome.ofJson, bind_eq_ok, present_eq_ok, pure_eq_ok, Outcome.mk.injEq, Shows,
      Outcome.record, List.forall_mem_cons, Field.heldIn_required]
    grind
  | array items =>
    simp only [Outcome.ofJson, bind_eq_ok, item_eq_ok, noMore_eq_ok, pure_eq_ok, Outcome.mk.injEq,
      Shows, Outcome.record, Prod.exists, List.forall₂_cons_right_iff, List.forall₂_nil_right_iff,
      Field.reads_required]
    grind
  | _ => simp [Outcome.ofJson, Shows]

/-- A second outcome may be left out where there is none. -/
def ModeOutcome.record (outcome : ModeOutcome) : List Field := [
  .required "mode" Mode.ofJson outcome.mode,
  .required "primary" Outcome.ofJson outcome.primary,
  .optional "secondary" (asOption Outcome.ofJson) outcome.secondary (outcome.secondary = none)]

theorem ModeOutcome.ofJson_eq_ok_iff {outcome : ModeOutcome} :
    ModeOutcome.ofJson json = .ok outcome ↔ json.Shows outcome.record := by
  obtain ⟨mode, primary, secondary⟩ := outcome
  cases json with
  | object fields =>
    simp only [ModeOutcome.ofJson, bind_eq_ok, present_eq_ok, pure_eq_ok, ModeOutcome.mk.injEq,
      Shows, ModeOutcome.record, List.forall_mem_cons, Field.heldIn_required,
      Field.heldIn_optional, join_eq_iff]
    grind
  | array items =>
    simp only [ModeOutcome.ofJson, bind_eq_ok, item_eq_ok, noMore_eq_ok, pure_eq_ok,
      ModeOutcome.mk.injEq, Shows, ModeOutcome.record, Prod.exists, List.forall₂_cons_right_iff,
      List.forall₂_nil_right_iff, Field.reads_required, Field.reads_optional]
    grind
  | _ => simp [ModeOutcome.ofJson, Shows]

def Formula.record (formula : Formula) : List Field := [
  .required "terms" (asList Term.ofJson) formula.terms,
  .required "diagnostics" (asList Diagnostic.ofJson) formula.diagnostics,
  .required "recognized" word64 formula.recognized,
  .required "skipped" word64 formula.skipped]

theorem Formula.ofJson_eq_ok_iff {formula : Formula} :
    Formula.ofJson json = .ok formula ↔ json.Shows formula.record := by
  obtain ⟨terms, diagnostics, recognized, skipped⟩ := formula
  cases json with
  | object fields =>
    simp only [Formula.ofJson, bind_eq_ok, present_eq_ok, pure_eq_ok, Formula.mk.injEq, Shows,
      Formula.record, List.forall_mem_cons, Field.heldIn_required]
    grind
  | array items =>
    simp only [Formula.ofJson, bind_eq_ok, item_eq_ok, noMore_eq_ok, pure_eq_ok, Formula.mk.injEq,
      Shows, Formula.record, Prod.exists, List.forall₂_cons_right_iff, List.forall₂_nil_right_iff,
      Field.reads_required]
    grind
  | _ => simp [Formula.ofJson, Shows]

end Records

end DiceNotation
