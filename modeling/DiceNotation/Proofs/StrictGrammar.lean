import DiceNotation.Proofs.Lexing
import DiceNotation.Proofs.Meaning
import DiceNotation.Proofs.Reading

/-!
What a strict reading accepts: texts that split into terms whose numbers are usable as written and
whose dice exist.

* `Split lexemes terms`: the lexemes are those of the terms, in order, and no number stands right
  before a term that begins with the letter `d`;
* `Split.unique`: there is at most one split;
* `segments_of_split` and `exists_split`: the segments are terms only just where there is a split;
* `TermForm.Admissible`: the conditions on one term.
-/
namespace DiceNotation
set_option autoImplicit false

/-! ## Splits -/

structure Split (lexemes : List Lexeme) (terms : List (TermForm × List Lexeme)) : Prop where
  cover : terms.flatMap Prod.snd = lexemes
  spelled : ∀ term ∈ terms, TermSpelled term.1 term.2
  apart : terms.IsChain fun a b => a.1.body.isFlat = true → NotAhead .dice b.2

theorem TermSpelled.ne_nil {form : TermForm} {taken : List Lexeme} (h : TermSpelled form taken) :
    taken ≠ [] := by
  obtain ⟨-, -, hstart⟩ := h
  intro hnil
  rw [hnil] at hstart
  cases hstart

theorem split_nil_iff {lexemes : List Lexeme} : Split lexemes [] ↔ lexemes = [] :=
  ⟨fun h => h.cover.symm, fun h => ⟨h.symm, nofun, .nil⟩⟩

theorem split_cons_iff {lexemes : List Lexeme} {form : TermForm} {taken : List Lexeme}
    {terms : List (TermForm × List Lexeme)} :
    Split lexemes ((form, taken) :: terms) ↔
      ∃ rest, lexemes = taken ++ rest ∧ TermSpelled form taken ∧
        (form.body.isFlat = true → NotAhead .dice rest) ∧ Split rest terms := by
  constructor
  · intro h
    have hspelled := List.forall_mem_cons.mp h.spelled
    refine ⟨terms.flatMap Prod.snd, h.cover.symm, hspelled.1, ?_, rfl, hspelled.2,
      h.apart.tail⟩
    cases terms with
    | nil => exact fun _ => notAhead_nil .dice
    | cons next terms =>
      rw [List.flatMap_cons, notAhead_append (hspelled.2 next (List.mem_cons_self ..)).ne_nil]
      exact h.apart.rel
  · rintro ⟨rest, rfl, hspelled, hahead, hsplit⟩
    refine ⟨?_, List.forall_mem_cons.mpr ⟨hspelled, hsplit.spelled⟩, ?_⟩
    · rw [List.flatMap_cons, hsplit.cover]
    · cases terms with
      | nil => exact .singleton _
      | cons next terms =>
        refine .cons_cons (fun hflat => ?_) hsplit.apart
        have hnext := hahead hflat
        rwa [← hsplit.cover, List.flatMap_cons,
          notAhead_append (hsplit.spelled next (List.mem_cons_self ..)).ne_nil] at hnext

/-- The first term of a split is the one that is taken. -/
theorem takeTerm_of_split {lexemes : List Lexeme} {form : TermForm} {taken : List Lexeme}
    {terms : List (TermForm × List Lexeme)} (h : Split lexemes ((form, taken) :: terms)) :
    ∃ rest, lexemes = taken ++ rest ∧ takeTerm lexemes = some (form, rest) ∧ Split rest terms := by
  obtain ⟨rest, rfl, hspelled, hahead, hsplit⟩ := split_cons_iff.mp h
  exact ⟨rest, rfl, takeTerm_append hspelled hahead, hsplit⟩

theorem Split.unique {lexemes : List Lexeme} {terms terms' : List (TermForm × List Lexeme)}
    (h : Split lexemes terms) (h' : Split lexemes terms') : terms' = terms := by
  induction terms generalizing lexemes terms' with
  | nil =>
    cases terms' with
    | nil => rfl
    | cons next others =>
      obtain ⟨rest, hrest, -, -⟩ := takeTerm_of_split h'
      rw [split_nil_iff.mp h] at hrest
      have hne := (h'.spelled next (List.mem_cons_self ..)).ne_nil
      exact absurd (List.append_eq_nil_iff.mp hrest.symm).1 hne
  | cons term terms ih =>
    obtain ⟨rest, hrest, htake, hsplit⟩ := takeTerm_of_split h
    cases terms' with
    | nil =>
      rw [split_nil_iff.mp h'] at htake
      cases htake
    | cons next others =>
      obtain ⟨rest', hrest', htake', hsplit'⟩ := takeTerm_of_split h'
      obtain ⟨hform, rfl⟩ := Prod.mk.inj (Option.some.inj (htake'.symm.trans htake))
      have htaken := List.append_cancel_right (hrest'.symm.trans hrest)
      rw [ih hsplit hsplit', Prod.ext hform htaken]

theorem segments_of_split {lexemes : List Lexeme} {terms : List (TermForm × List Lexeme)}
    (h : Split lexemes terms) : segments lexemes = terms.map fun term => .term term.1 := by
  induction terms generalizing lexemes with
  | nil => rw [split_nil_iff.mp h, segments_nil, List.map_nil]
  | cons term terms ih =>
    obtain ⟨rest, -, htake, hsplit⟩ := takeTerm_of_split h
    rw [segments_of_takeTerm htake, ih hsplit, List.map_cons]

/-- A number that is a longest term has no dice behind it. -/
theorem IsLongest.notAhead {form form' : TermForm} {taken next rest : List Lexeme}
    (h : IsLongest form taken (next ++ rest)) (hnext : TermSpelled form' next)
    (hflat : form.body.isFlat = true) : NotAhead .dice next := by
  obtain ⟨⟨hsign, hbody, hstart⟩, hlongest⟩ := h
  rename_i start sign s body b
  cases hbody with
  | dice | counted => cases hflat
  | @flat number hnumber =>
    obtain ⟨hsign', hbody', -⟩ := hnext
    cases hsign' with
    | plus hmark => exact notAhead_cons hmark (by decide) _
    | minus hmark => exact notAhead_cons hmark (by decide) _
    | unwritten =>
      cases hbody' with
      | flat hnumber' => exact notAhead_cons hnumber' (by decide) _
      | counted hcount _ _ => exact notAhead_cons hcount (by decide) _
      | @dice letter faces f hletter hfaces =>
        -- The number would be a count.
        have hcounted := BodySpelled.counted hnumber hletter hfaces
        have hhead : (s ++ number :: letter :: f).head?.map Lexeme.start = some start := by
          cases s <;> exact hstart
        have hle := hlongest _ _ rest (by simp) (.mk hsign hcounted hhead)
        simp only [List.length_append, List.length_cons, List.length_nil] at hle
        omega

theorem exists_split {lexemes : List Lexeme} {forms : List TermForm}
    (h : segments lexemes = forms.map Segment.term) :
    ∃ terms, Split lexemes terms ∧ terms.map Prod.fst = forms := by
  induction forms generalizing lexemes with
  | nil => exact ⟨[], split_nil_iff.mpr (segments_eq_nil_iff.mp h), rfl⟩
  | cons form forms ih =>
    obtain ⟨rest, htake, hrest⟩ := takeTerm_of_segments h
    obtain ⟨terms, hsplit, hforms⟩ := ih hrest
    obtain ⟨taken, rfl, hlongest⟩ := takeTerm_eq_some_iff.mp htake
    refine ⟨(form, taken) :: terms, split_cons_iff.mpr ⟨rest, rfl, hlongest.1, ?_, hsplit⟩, ?_⟩
    · intro hflat
      cases terms with
      | nil =>
        rw [split_nil_iff.mp hsplit]
        exact notAhead_nil .dice
      | cons next terms =>
        obtain ⟨after, rfl, hnext, -, -⟩ := split_cons_iff.mp hsplit
        rw [notAhead_append hnext.ne_nil]
        exact hlongest.notAhead hnext hflat
    · rw [List.map_cons, hforms]

/-! ## Numbers that are usable as written -/

def BodyForm.count? : BodyForm → Option Numeral
  | .flat _ => none
  | .dice count _ => count

def EntryForm.numbers (entry : EntryForm) : List Numeral := entry.value :: entry.weight.toList

def FacesForm.numbers : FacesForm → List Numeral
  | .count number => [number]
  | .fudge => []
  | .list entries => entries.flatMap EntryForm.numbers

/-- All numbers of a term but the count. -/
def BodyForm.numbers : BodyForm → List Numeral
  | .flat number => [number]
  | .dice _ faces => faces.numbers

structure TermForm.Fits (maxCount : Nat) (form : TermForm) : Prop where
  count : ∀ number ∈ form.body.count?, 1 ≤ number.value ∧ number.value ≤ min maxCount 10000
  numbers : ∀ number ∈ form.body.numbers, number.value ≤ 2147483647

/-- The numbers are usable as written, and with them there is a die. -/
def TermForm.Admissible (maxCount : Nat) (form : TermForm) : Prop :=
  form.Fits maxCount ∧ (form.plain .exact).die.Valid

theorem saturation_eq_nil_iff {number : Numeral} :
    number.saturation = [] ↔ number.value ≤ 2147483647 := by
  unfold Numeral.saturation Numeral.fits
  split
  · next h => exact ⟨fun _ => of_decide_eq_true h, fun _ => rfl⟩
  · next h => exact ⟨nofun, fun hle => absurd (decide_eq_true hle) h⟩

theorem countIssues_eq_nil_iff {maxCount : Nat} {count : Option Numeral} :
    countIssues maxCount count = [] ↔
      ∀ number ∈ count, 1 ≤ number.value ∧ number.value ≤ min maxCount 10000 := by
  cases count with
  | none => exact ⟨fun _ => nofun, fun _ => rfl⟩
  | some number =>
    simp only [countIssues, Option.mem_some_iff, forall_eq', ← Numeral.isCount_iff]
    split
    · next h => exact ⟨fun _ => h, fun _ => rfl⟩
    · next h => exact ⟨nofun, fun hcount => absurd hcount h⟩

theorem faces_issues_eq (faces : FacesForm) :
    faces.issues = faces.numbers.flatMap Numeral.saturation := by
  cases faces with
  | count number => simp [FacesForm.issues, FacesForm.numbers]
  | fudge => rfl
  | list entries =>
    rw [FacesForm.issues, FacesForm.numbers, List.flatMap_assoc]
    congr 1
    funext entry
    rw [EntryForm.issues, EntryForm.numbers, List.flatMap_cons]
    cases entry.weight with
    | none => rfl
    | some weight => simp

/-- The count is looked at first, and then the other numbers in the order of the form. -/
theorem TermForm.issues_eq (maxCount : Nat) (form : TermForm) :
    form.issues maxCount =
      countIssues maxCount form.body.count? ++ form.body.numbers.flatMap Numeral.saturation := by
  obtain ⟨start, sign, body⟩ := form
  cases body with
  | flat number => simp [TermForm.issues, BodyForm.count?, BodyForm.numbers, countIssues]
  | dice count faces =>
    simp only [TermForm.issues, faces_issues_eq, BodyForm.count?, BodyForm.numbers]

theorem issues_eq_nil_iff {maxCount : Nat} {form : TermForm} :
    form.issues maxCount = [] ↔ form.Fits maxCount := by
  have hnumbers : form.body.numbers.flatMap Numeral.saturation = [] ↔
      ∀ number ∈ form.body.numbers, number.value ≤ 2147483647 := by
    simp only [List.flatMap_eq_nil_iff, saturation_eq_nil_iff]
  rw [form.issues_eq, List.append_eq_nil_iff, countIssues_eq_nil_iff, hnumbers]
  exact ⟨fun h => ⟨h.1, h.2⟩, fun h => ⟨h.count, h.numbers⟩⟩

/-! ## Numbers that fit are read as written -/

section Exact
variable {maxCount : Nat}

theorem tolerant_other {n : Nat} (h : n ≤ 2147483647) :
    (NumberReading.tolerant maxCount).other n = n := Nat.min_eq_left h

theorem entry_plain_tolerant {entry : EntryForm}
    (h : ∀ number ∈ entry.numbers, number.value ≤ 2147483647) :
    entry.plain (.tolerant maxCount) = entry.plain .exact := by
  obtain ⟨sign, value, weight⟩ := entry
  have hvalue := h value (List.mem_cons_self ..)
  cases weight with
  | none => simp only [EntryForm.plain, tolerant_other hvalue, NumberReading.exact]
  | some weight =>
    have hweight := h weight (List.mem_cons_of_mem value (List.mem_singleton.mpr rfl))
    simp only [EntryForm.plain, tolerant_other hvalue, tolerant_other hweight, NumberReading.exact]

theorem faces_plain_tolerant {faces : FacesForm}
    (h : ∀ number ∈ faces.numbers, number.value ≤ 2147483647) :
    faces.plain (.tolerant maxCount) = faces.plain .exact := by
  cases faces with
  | count number =>
    rw [FacesForm.plain, FacesForm.plain, tolerant_other (h number (List.mem_singleton.mpr rfl))]
    rfl
  | fudge => rfl
  | list entries =>
    have hentry : ∀ entry ∈ entries, entry.plain (.tolerant maxCount) = entry.plain .exact :=
      fun entry hentry => entry_plain_tolerant fun number hnumber =>
        h number (List.mem_flatMap.mpr ⟨entry, hentry, hnumber⟩)
    rw [FacesForm.plain, FacesForm.plain, List.map_congr_left hentry,
      List.map_congr_left fun entry hmem => congrArg Prod.fst (hentry entry hmem)]

theorem TermForm.Fits.plain_tolerant {form : TermForm} (h : form.Fits maxCount) :
    form.plain (.tolerant maxCount) = form.plain .exact := by
  obtain ⟨start, sign, body⟩ := form
  cases body with
  | flat number =>
    have hnumber := h.numbers number (List.mem_singleton.mpr rfl)
    rw [TermForm.plain, TermForm.plain]
    simp only [tolerant_other hnumber, NumberReading.exact]
  | dice count faces =>
    have hfaces : faces.plain (.tolerant maxCount) = faces.plain .exact :=
      faces_plain_tolerant h.numbers
    cases count with
    | none =>
      rw [TermForm.plain, TermForm.plain]
      simp only [hfaces]
    | some count =>
      have hcount : (NumberReading.tolerant maxCount).count count.value = count.value :=
        if_pos (h.count count rfl)
      rw [TermForm.plain, TermForm.plain]
      simp only [hfaces, hcount, NumberReading.exact]

end Exact

/-! ## Strict readings -/

theorem exists_term_of_admissible {maxCount : Nat} {form : TermForm}
    (h : form.Admissible maxCount) : ∃ term, form.term maxCount = .ok term := by
  cases hterm : form.term maxCount with
  | ok term => exact ⟨term, rfl⟩
  | error flaw =>
    have hflaw := TermForm.term_eq_error_iff.mp hterm
    rw [h.1.plain_tolerant, PlainDie.flaw_eq_none_iff.mpr h.2] at hflaw
    cases hflaw

theorem ofSegments_of_admissible {maxCount : Nat} {forms : List TermForm}
    (h : ∀ form ∈ forms, form.Admissible maxCount) :
    ∃ formula, Formula.ofSegments ⟨true, maxCount⟩ (forms.map Segment.term) = .ok formula := by
  induction forms with
  | nil => exact ⟨_, rfl⟩
  | cons form forms ih =>
    obtain ⟨hform, hforms⟩ := List.forall_mem_cons.mp h
    obtain ⟨term, hterm⟩ := exists_term_of_admissible hform
    obtain ⟨rest, hrest⟩ := ih hforms
    have hissues : ReadOptions.report ⟨true, maxCount⟩ ((Segment.term form).issues maxCount) =
        .ok [] := by
      rw [Segment.issues, issues_eq_nil_iff.mpr hform.1, report_nil]
    rw [List.map_cons, ofSegments_cons_ok hissues (terms_of_term hterm), hrest]
    exact ⟨_, rfl⟩

/-- What a strict reading that succeeds is like. -/
theorem forms_of_ofSegments {maxCount : Nat} {segments : List Segment} {formula : Formula}
    (h : Formula.ofSegments ⟨true, maxCount⟩ segments = .ok formula) :
    ∃ forms : List TermForm, segments = forms.map Segment.term ∧
      (∀ form ∈ forms, form.Admissible maxCount) ∧
      formula.terms.map Term.plain = forms.map (TermForm.plain .exact) ∧
      formula.diagnostics = [] ∧ formula.skipped = 0 := by
  induction segments generalizing formula with
  | nil =>
    cases h
    exact ⟨[], rfl, nofun, rfl, rfl, rfl⟩
  | cons segment more ih =>
    obtain ⟨diagnostics, terms, rest, hreport, hterms, hmore, rfl⟩ := ofSegments_cons_eq_ok h
    obtain ⟨hissues, rfl⟩ := report_strict_eq_ok hreport
    obtain ⟨forms, rfl, hforms, hplain, hdiagnostics, hskipped⟩ := ih hmore
    cases segment with
    | skipped first others => cases hissues
    | term form =>
      have hfits : form.Fits maxCount := issues_eq_nil_iff.mp hissues
      obtain ⟨term, hmade, rfl⟩ := terms_eq_ok hterms
      have hterm := TermForm.term_eq_ok_iff.mp hmade
      rw [hfits.plain_tolerant] at hterm
      have hvalid : (form.plain .exact).die.Valid := hterm ▸ term.die.valid_plain
      refine ⟨form :: forms, rfl, List.forall_mem_cons.mpr ⟨⟨hfits, hvalid⟩, hforms⟩, ?_,
        hdiagnostics, ?_⟩
      · simp only [List.cons_append, List.nil_append, List.map_cons, hterm, hplain]
      · simp only [Segment.skippedWidth, hskipped]

theorem split_of_ofSegments {maxCount : Nat} {lexemes : List Lexeme} {formula : Formula}
    (h : Formula.ofSegments ⟨true, maxCount⟩ (segments lexemes) = .ok formula) :
    ∃ terms, Split lexemes terms ∧ (∀ term ∈ terms, term.1.Admissible maxCount) ∧
      formula.terms.map Term.plain = terms.map (fun term => term.1.plain .exact) ∧
      formula.diagnostics = [] ∧ formula.skipped = 0 := by
  obtain ⟨forms, hsegments, hforms, hplain, hdiagnostics, hskipped⟩ := forms_of_ofSegments h
  obtain ⟨terms, hsplit, rfl⟩ := exists_split hsegments
  refine ⟨terms, hsplit, List.forall_mem_map.mp hforms, ?_, hdiagnostics, hskipped⟩
  rw [hplain, List.map_map]
  rfl

theorem ofSegments_of_split {maxCount : Nat} {lexemes : List Lexeme}
    {terms : List (TermForm × List Lexeme)} (hsplit : Split lexemes terms)
    (hterms : ∀ term ∈ terms, term.1.Admissible maxCount) :
    ∃ formula, Formula.ofSegments ⟨true, maxCount⟩ (segments lexemes) = .ok formula ∧
      formula.terms.map Term.plain = terms.map (fun term => term.1.plain .exact) ∧
      formula.diagnostics = [] ∧ formula.skipped = 0 := by
  have hforms : ∀ form ∈ terms.map Prod.fst, form.Admissible maxCount :=
    List.forall_mem_map.mpr hterms
  obtain ⟨formula, hok⟩ := ofSegments_of_admissible hforms
  have hsegments : segments lexemes = (terms.map Prod.fst).map Segment.term := by
    rw [segments_of_split hsplit, List.map_map]
    rfl
  rw [← hsegments] at hok
  obtain ⟨others, hothers, -, hrest⟩ := split_of_ofSegments hok
  rw [hsplit.unique hothers] at hrest
  exact ⟨formula, hok, hrest⟩

/-- A strict reading succeeds just on the texts whose lexemes split into admissible terms; there is
one split at most, and the terms read are those it writes. -/
theorem strict_accepts_iff_split (text : String) (maxCount : Nat) :
    Tokenizes text.toList (lexemes text.toList) ∧
    ((∃ formula, Formula.ofText text ⟨true, maxCount⟩ = .ok formula) ↔
      ∃ terms, Split (lexemes text.toList) terms ∧
        ∀ term ∈ terms, term.1.Admissible maxCount) ∧
    (∀ terms terms', Split (lexemes text.toList) terms → Split (lexemes text.toList) terms' →
      terms' = terms) ∧
    ∀ formula terms, Formula.ofText text ⟨true, maxCount⟩ = .ok formula →
      Split (lexemes text.toList) terms →
      formula.terms.map Term.plain = terms.map fun term => term.1.plain .exact := by
  refine ⟨tokenizes_lexemes _, ⟨?_, ?_⟩, fun terms terms' h h' => h.unique h', ?_⟩
  · rintro ⟨formula, hok⟩
    obtain ⟨terms, hsplit, hterms, -⟩ := split_of_ofSegments hok
    exact ⟨terms, hsplit, hterms⟩
  · rintro ⟨terms, hsplit, hterms⟩
    obtain ⟨formula, hok, -⟩ := ofSegments_of_split hsplit hterms
    exact ⟨formula, hok⟩
  · intro formula terms hok hsplit
    obtain ⟨others, hothers, -, hplain, -⟩ := split_of_ofSegments hok
    rw [hplain, hsplit.unique hothers]

end DiceNotation
