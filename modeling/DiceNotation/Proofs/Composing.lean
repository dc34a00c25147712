import DiceNotation.Proofs.Faults
import DiceNotation.Proofs.Matching
import DiceNotation.Proofs.Spans

/-!
Terms of matches.

A match keeps its lexemes, and a number that cannot be used is quoted from the text by the offsets
of its lexeme.

* `quote`, and `finds_quote`: what stands from the start of one lexeme to the end of another;
* `scoreOf` to `termOf`: the term of a match, part by part;
* `reports_scoreOf` to `reports_termOf`: they report the issues of the form that is matched, in the
  order of its numbers, and then make of it what a reading makes.
-/
namespace DiceNotation
set_option autoImplicit false

/-! ## Quotations -/

/-- The visible characters from one offset up to another. -/
def quote (text : List Char) (start stop : Nat) : Scan String := do
  let quoted ← .look (.chars start stop) (slice? text start stop)
  return .ofList (visible quoted)

section Quote
variable {text : List Char} {a b : Nat} {first last : Lexeme}

theorem take_succ_of_getElem? {found : List Lexeme} (h : found[b]? = some last) :
    found.take (b + 1) = found.take b ++ [last] := by
  rw [List.take_add_one, h]
  rfl

theorem visible_take_start (h : (lexemes text)[a]? = some first) :
    visible (text.take first.start) = ((lexemes text).take a).flatMap Lexeme.text := by
  have hsplit : lexemes text = (lexemes text).take a ++ first :: (lexemes text).drop (a + 1) := by
    rw [← drop_eq_cons h, List.take_append_drop]
  exact (visible_at_start hsplit).1

theorem visible_take_stop (h : (lexemes text)[b]? = some last) :
    visible (text.take last.stop) = ((lexemes text).take (b + 1)).flatMap Lexeme.text := by
  have hmem := List.mem_of_getElem? h
  have hlt := (cut_lexemes text).start_lt_stop (inOrder_glyphs 0 text) hmem
  rw [← visible_take_append_slice text (Nat.le_of_lt hlt), visible_take_start h,
    take_succ_of_getElem? h, List.flatMap_append, List.flatMap_singleton,
    (cut_lexemes text).text_eq_span hmem, Lexeme.span]

theorem start_lt_stop_of_le (ha : (lexemes text)[a]? = some first)
    (hb : (lexemes text)[b]? = some last) (hab : a ≤ b) :
    first.start < last.stop ∧ last.stop ≤ text.length := by
  have hlt {lexeme : Lexeme} (h : lexeme ∈ lexemes text) : lexeme.start < lexeme.stop :=
    (cut_lexemes text).start_lt_stop (inOrder_glyphs 0 text) h
  have hfirst := hlt (List.mem_of_getElem? ha)
  have hlast := hlt (List.mem_of_getElem? hb)
  obtain ⟨-, c, hc, -⟩ := exists_visible_ends (List.mem_of_getElem? hb)
  obtain ⟨hend, -⟩ := List.getElem?_eq_some_iff.mp hc
  refine ⟨?_, by omega⟩
  rcases Nat.eq_or_lt_of_le hab with rfl | hlt
  · rw [ha] at hb
    cases hb
    exact hfirst
  · obtain ⟨hi, rfl⟩ := List.getElem?_eq_some_iff.mp ha
    obtain ⟨hj, rfl⟩ := List.getElem?_eq_some_iff.mp hb
    have hapart := List.pairwise_iff_getElem.mp
      ((cut_lexemes text).pairwise_stop_le (inOrder_glyphs 0 text)) a b hi hj hlt
    omega

/-- Lexemes in a row are quoted with the characters that they are written with. -/
theorem finds_quote (ha : (lexemes text)[a]? = some first) (hb : (lexemes text)[b]? = some last)
    (hab : a ≤ b) :
    (quote text first.start last.stop).Finds text (lexemes text)
      (.ofList ((((lexemes text).take (b + 1)).drop a).flatMap Lexeme.text)) := by
  obtain ⟨hlt, hle⟩ := start_lt_stop_of_le ha hb hab
  have hquoted : visible ((text.take last.stop).drop first.start) =
      (((lexemes text).take (b + 1)).drop a).flatMap Lexeme.text := by
    have hcat := visible_take_append_slice text (Nat.le_of_lt hlt)
    have htake : ((lexemes text).take (b + 1)).take a = (lexemes text).take a := by
      rw [List.take_take, Nat.min_eq_left (by omega)]
    rw [visible_take_start ha, visible_take_stop hb,
      ← List.take_append_drop a ((lexemes text).take (b + 1)), htake, List.flatMap_append] at hcat
    exact List.append_cancel_left hcat
  unfold quote
  rw [slice?_eq_some (Nat.le_of_lt hlt) hle, ← hquoted]
  exact (Scan.finds_look (show Access.InRange text _ (.chars _ _) from ⟨hlt, hle⟩) _).bind
    (Scan.finds_pure _)

theorem finds_quote_number (number : Picked (lexemes text)) :
    (quote text number.val.start number.val.stop).Finds text (lexemes text)
      (.ofList number.val.text) := by
  obtain ⟨i, hi⟩ := List.mem_iff_getElem?.mp number.property
  have h := finds_quote hi hi (Nat.le_refl i)
  have hdrop : ((lexemes text).take (i + 1)).drop i = [number.val] := by
    obtain ⟨hlt, -⟩ := List.getElem?_eq_some_iff.mp hi
    rw [take_succ_of_getElem? hi, List.drop_left' (by rw [List.length_take]; omega)]
  rw [hdrop, List.flatMap_singleton] at h
  exact h

end Quote

/-! ## Terms of matches -/

section Building
variable (options : ReadOptions) {text : List Char}

/-- The score of a number; one too large means the highest. -/
def scoreOf (number : Picked (lexemes text)) : Scan Score :=
  if number.numeral.fits then
    return number.numeral.score
  else do
    let quoted ← quote text number.val.start number.val.stop
    Scan.note options ⟨.saturated, number.val.start, quoted⟩
    return .highest

def countOf : Option (Picked (lexemes text)) → Scan Nat
  | none => return 1
  | some number =>
    if number.numeral.isCount options.maxCount then
      return number.numeral.value
    else do
      let quoted ← quote text number.val.start number.val.stop
      Scan.note options ⟨.countFallback, number.val.start, quoted⟩
      return 1

def weightOf : Option (Picked (lexemes text)) → Scan Nat
  | none => return 1
  | some number => do
    let weight ← scoreOf options number
    return weight.toInt.natAbs

/-- The face and the weight of an entry. -/
def entryOf (entry : EntryMatch (lexemes text)) : Scan (Score × Nat) := do
  let value ← scoreOf options entry.value
  let weight ← weightOf options entry.weight
  return ((entry.sign.getD .plus).apply value, weight)

def entriesOf : List (EntryMatch (lexemes text)) → Scan (List (Score × Nat))
  | [] => return []
  | entry :: more => do
    let first ← entryOf options entry
    let others ← entriesOf more
    return first :: others

def dieOf : FacesMatch (lexemes text) → Scan (Except DieFlaw Die)
  | .count number => do
    let faces ← scoreOf options number
    return Die.ofFaces faces
  | .fudge => return .ok Die.fudge
  | .list entries => do
    let made ← entriesOf options entries
    if entries.any fun entry => entry.weight.isSome then
      return Die.ofEntries made
    else
      return Die.ofValues (made.map Prod.fst)

def termOf (term : TermMatch (lexemes text)) : Scan Term :=
  match term.body with
  | .flat number => do
    let value ← scoreOf options number
    return Term.flat (term.sign.getD .plus) value
  | .dice count faces => do
    let count ← countOf options count
    let die ← dieOf options faces
    let made := die.mapError .invalidDie >>= Term.make (term.sign.getD .plus) count
    Scan.ofMade (made.mapError fun fault => .located term.start (.die fault))

end Building

section Reports
variable (options : ReadOptions) {text : List Char}

/-- Where a number cannot be used, it is quoted, and another value is taken instead. -/
theorem reports_fallback {α : Type} (number : Picked (lexemes text)) (kind : DiagnosticKind)
    (value : α) :
    (do
      let quoted ← quote text number.val.start number.val.stop
      Scan.note options ⟨kind, number.val.start, quoted⟩
      return value : Scan α).Reports text (lexemes text) options
        [⟨kind, number.numeral.start, .ofList number.numeral.text⟩] (.ok value) :=
  (finds_quote_number number).bind ((Scan.reports_note _).map fun _ => value)

theorem reports_scoreOf (number : Picked (lexemes text)) :
    (scoreOf options number).Reports text (lexemes text) options number.numeral.saturation
      (.ok number.numeral.score) := by
  unfold scoreOf Numeral.saturation
  split
  · exact (Scan.finds_pure _).reports
  · next hfits =>
    have hscore : number.numeral.score = .highest := by
      rw [number.numeral.score_eq_getD.1, Numeral.score?, if_neg hfits]
      rfl
    rw [hscore]
    exact reports_fallback options number .saturated Score.highest

theorem reports_countOf (count : Option (Picked (lexemes text))) :
    (countOf options count).Reports text (lexemes text) options
      (countIssues options.maxCount (count.map Picked.numeral))
      (.ok (countMeant options.maxCount (count.map Picked.numeral))) := by
  cases count with
  | none => exact (Scan.finds_pure 1).reports
  | some number =>
    simp only [countOf, Option.map_some, countIssues, countMeant]
    split
    · exact (Scan.finds_pure _).reports
    · exact reports_fallback options number .countFallback 1

theorem reports_entryOf (entry : EntryMatch (lexemes text)) :
    (entryOf options entry).Reports text (lexemes text) options entry.form.issues
      (.ok (entry.form.face, entry.form.weightMeant)) := by
  obtain ⟨sign, value, weight⟩ := entry
  refine (reports_scoreOf options value).bind ?_
  cases weight with
  | none => exact (Scan.finds_pure 1).reports.map _
  | some number =>
    have hweight : number.numeral.score.toInt.natAbs = number.numeral.score.toInt.toNat := by
      rw [Numeral.toInt_score]
      omega
    have hreports : (weightOf options (some number)).Reports text (lexemes text) options
        number.numeral.saturation (.ok number.numeral.score.toInt.toNat) := by
      rw [← hweight]
      exact (reports_scoreOf options number).map _
    exact hreports.map _

theorem reports_entriesOf (entries : List (EntryMatch (lexemes text))) :
    (entriesOf options entries).Reports text (lexemes text) options
      ((entries.map EntryMatch.form).flatMap EntryForm.issues)
      (.ok ((entries.map EntryMatch.form).map fun entry => (entry.face, entry.weightMeant))) := by
  induction entries with
  | nil => exact (Scan.finds_pure []).reports
  | cons entry more ih => exact (reports_entryOf options entry).bind (ih.map _)

theorem reports_dieOf (faces : FacesMatch (lexemes text)) :
    (dieOf options faces).Reports text (lexemes text) options faces.form.issues
      (.ok faces.form.die) := by
  cases faces with
  | count number => exact (reports_scoreOf options number).map _
  | fudge => exact (Scan.finds_pure _).reports
  | list entries =>
    have hweighted : (entries.map EntryMatch.form).any (fun entry => entry.weight.isSome) =
        entries.any fun entry => entry.weight.isSome := by
      rw [List.any_map]
      refine congrArg entries.any (funext fun entry => ?_)
      exact Option.isSome_map
    have hentries := reports_entriesOf options entries
    simp only [FacesMatch.form, FacesForm.issues, FacesForm.die, hweighted, dieOf]
    split
    · exact hentries.map _
    · have hvalues : ((entries.map EntryMatch.form).map fun entry =>
          (entry.face, entry.weightMeant)).map Prod.fst =
            (entries.map EntryMatch.form).map EntryForm.face := List.map_map
      rw [← hvalues]
      exact hentries.map _

/-- What is made of a form, with a die that does not exist reported where the term starts. -/
def TermForm.made (maxCount : Nat) (form : TermForm) : Except FormulaError Term :=
  (form.checked maxCount).mapError fun fault => .located form.start (.die fault)

theorem reports_termOf (term : TermMatch (lexemes text)) :
    (termOf options term).Reports text (lexemes text) options (term.form.issues options.maxCount)
      (term.form.made options.maxCount) := by
  obtain ⟨start, sign, body⟩ := term
  cases body with
  | flat number => exact (reports_scoreOf options number).map _
  | dice count faces =>
    refine (reports_countOf options count).bind ?_
    rw [← List.append_nil (FacesForm.issues _)]
    exact (reports_dieOf options faces).bind (Scan.reports_ofMade _)

end Reports

end DiceNotation
