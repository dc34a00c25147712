import DiceNotation.Proofs.Spacing
import DiceNotation.Proofs.StrictGrammar
import Mathlib.Data.List.Infix

/-!
What is told of a text is in the text: every issue quotes visible characters from its position on.

* `Segment.Takes segment taken`: the lexemes that a segment was made of;
* `takes_segments`: the segments take all lexemes, in order, and skip no number;
* `numerals found`: the numbers among some lexemes, for a term those of its form, in order;
* `Diagnostic.Quotes maxCount row issue`: the issue quotes lexemes in a row, or a number that
  cannot be used;
* `quoted_segments`: the issues of the segments quote the lexemes from the first to the last, none
  of them twice;
* `Diagnostic.Quotes.isPrefix`: what an issue quotes stands in the text where it says.
-/
namespace DiceNotation
set_option autoImplicit false

/-! ## The lexemes of a segment -/

inductive Segment.Takes : Segment → List Lexeme → Prop
  | term {form : TermForm} {taken : List Lexeme} (h : TermSpelled form taken) :
      Takes (.term form) taken
  | skipped {first : Lexeme} {more : List Lexeme}
      (hmarks : ∀ lexeme ∈ first :: more, lexeme.token ≠ .number) :
      Takes (.skipped first more) (first :: more)

theorem takes_skip {lexeme : Lexeme} {found : List Segment} {parts : List (List Lexeme)}
    (hmark : lexeme.token ≠ .number) (h : List.Forall₂ Segment.Takes found parts) :
    ∃ parts', List.Forall₂ Segment.Takes (Segment.skip lexeme found) parts' ∧
      parts'.flatten = lexeme :: parts.flatten := by
  have halone : (Segment.skipped lexeme []).Takes [lexeme] :=
    .skipped (List.forall_mem_singleton.mpr hmark)
  cases h with
  | nil => exact ⟨[[lexeme]], .cons halone .nil, rfl⟩
  | @cons segment taken others parts hfirst hmore =>
    cases hfirst with
    | term hspelled =>
      exact ⟨[lexeme] :: taken :: parts, .cons halone (.cons (.term hspelled) hmore), rfl⟩
    | @skipped first more hmarks =>
      exact ⟨(lexeme :: first :: more) :: parts,
        .cons (.skipped (List.forall_mem_cons.mpr ⟨hmark, hmarks⟩)) hmore, rfl⟩

/-- A number is a term by itself, so where there is no term there is no number. -/
theorem token_of_takeTerm_eq_none {lexeme : Lexeme} {more : List Lexeme}
    (h : takeTerm (lexeme :: more) = none) : lexeme.token ≠ .number := by
  intro hnumber
  exact takeTerm_eq_none_iff.mp h ⟨lexeme.start, none, .flat lexeme.numeral⟩ [lexeme] more rfl
    (.mk .unwritten (.flat hnumber) rfl)

theorem takes_segments (found : List Lexeme) :
    ∃ parts, List.Forall₂ Segment.Takes (segments found) parts ∧ parts.flatten = found := by
  fun_induction segments found with
  | case1 => exact ⟨[], .nil, rfl⟩
  | case2 lexeme more form rest htake ih =>
    obtain ⟨taken, htaken, hspelled⟩ := takeTerm_spelled htake
    obtain ⟨parts, hparts, rfl⟩ := ih
    exact ⟨taken :: parts, .cons (.term hspelled) hparts, htaken.symm⟩
  | case3 lexeme more hnone ih =>
    obtain ⟨parts, hparts, rfl⟩ := ih
    exact takes_skip (token_of_takeTerm_eq_none hnone) hparts

theorem exists_taken_of_mem {found : List Lexeme} {segment : Segment}
    (h : segment ∈ segments found) : ∃ taken, taken <:+: found ∧ segment.Takes taken := by
  obtain ⟨parts, hparts, hflatten⟩ := takes_segments found
  obtain ⟨i, hi, rfl⟩ := List.getElem_of_mem h
  have hi' : i < parts.length := hparts.length_eq ▸ hi
  have htakes := List.Forall₂.get hparts hi hi'
  have hinfix := List.infix_of_mem_flatten (List.get_mem parts ⟨i, hi'⟩)
  rw [hflatten] at hinfix
  exact ⟨_, hinfix, htakes⟩

/-! ## The numbers of a form -/

def numerals (found : List Lexeme) : List Numeral :=
  (found.filter fun lexeme => lexeme.token = .number).map Lexeme.numeral

@[simp] theorem numerals_nil : numerals [] = [] := rfl

theorem numerals_number {lexeme : Lexeme} (h : lexeme.token = .number) (more : List Lexeme) :
    numerals (lexeme :: more) = lexeme.numeral :: numerals more := by
  rw [numerals, List.filter_cons_of_pos (by simpa using h), List.map_cons, numerals]

theorem numerals_mark {lexeme : Lexeme} (h : lexeme.token ≠ .number) (more : List Lexeme) :
    numerals (lexeme :: more) = numerals more := by
  rw [numerals, List.filter_cons_of_neg (by simpa using h), numerals]

@[simp] theorem numerals_append (a b : List Lexeme) :
    numerals (a ++ b) = numerals a ++ numerals b := by
  rw [numerals, List.filter_append, List.map_append, numerals, numerals]

section Spelled
variable {spelling : List Lexeme}

theorem SignSpelled.numerals_eq {sign : Option Sign} (h : SignSpelled sign spelling) :
    numerals spelling = [] := by
  cases h with
  | unwritten => rfl
  | plus hmark | minus hmark => exact numerals_mark (by rw [hmark]; decide) []

theorem EntrySpelled.numerals_eq {entry : EntryForm} (h : EntrySpelled entry spelling) :
    numerals spelling = entry.numbers := by
  cases h with
  | plain hsign hvalue =>
    rw [numerals_append, hsign.numerals_eq, numerals_number hvalue]
    rfl
  | weighted hsign hvalue hcolon hweight =>
    rw [numerals_append, hsign.numerals_eq, numerals_number hvalue,
      numerals_mark (by rw [hcolon]; decide), numerals_number hweight]
    rfl

theorem EntriesSpelled.numerals_eq {entries : List EntryForm}
    (h : EntriesSpelled entries spelling) :
    numerals spelling = entries.flatMap EntryForm.numbers := by
  induction h with
  | last hentry => rw [hentry.numerals_eq, List.flatMap_singleton]
  | more hentry hcomma _ ih =>
    rw [numerals_append, hentry.numerals_eq, numerals_mark (by rw [hcomma]; decide), ih,
      List.flatMap_cons]

theorem FacesSpelled.numerals_eq {faces : FacesForm} (h : FacesSpelled faces spelling) :
    numerals spelling = faces.numbers := by
  cases h with
  | count hnumber => exact numerals_number hnumber []
  | fudge hletter => exact numerals_mark (by rw [hletter]; decide) []
  | emptyList hleft hright =>
    rw [numerals_mark (by rw [hleft]; decide), numerals_mark (by rw [hright]; decide)]
    rfl
  | list hleft hentries hright =>
    rw [numerals_mark (by rw [hleft]; decide), numerals_append, hentries.numerals_eq,
      numerals_mark (by rw [hright]; decide), numerals_nil, List.append_nil]
    rfl

theorem BodySpelled.numerals_eq {body : BodyForm} (h : BodySpelled body spelling) :
    numerals spelling = body.count?.toList ++ body.numbers := by
  cases h with
  | flat hnumber => exact numerals_number hnumber []
  | dice hletter hfaces =>
    rw [numerals_mark (by rw [hletter]; decide), hfaces.numerals_eq]
    rfl
  | counted hcount hletter hfaces =>
    rw [numerals_number hcount, numerals_mark (by rw [hletter]; decide), hfaces.numerals_eq]
    rfl

/-- The numbers of a term are written in order, the count first. -/
theorem TermSpelled.numerals_eq {form : TermForm} (h : TermSpelled form spelling) :
    numerals spelling = form.body.count?.toList ++ form.body.numbers := by
  obtain ⟨hsign, hbody, -⟩ := h
  rw [numerals_append, hsign.numerals_eq, hbody.numerals_eq, List.nil_append]

end Spelled

/-! ## Issues -/

/-- What an issue quotes: lexemes in a row that belong to no term, or one number that cannot be
used. -/
inductive Diagnostic.Quotes (maxCount : Nat) : List Lexeme → Diagnostic → Prop
  | skipped {first : Lexeme} {more : List Lexeme}
      (hmarks : ∀ lexeme ∈ first :: more, lexeme.token ≠ .number) :
      Quotes maxCount (first :: more)
        ⟨.skipped, first.start, .ofList ((first :: more).flatMap Lexeme.text)⟩
  | countFallback {lexeme : Lexeme} (hnumber : lexeme.token = .number)
      (hcount : lexeme.numeral.isCount maxCount = false) :
      Quotes maxCount [lexeme] ⟨.countFallback, lexeme.start, .ofList lexeme.text⟩
  | saturated {lexeme : Lexeme} (hnumber : lexeme.token = .number)
      (hlarge : lexeme.numeral.fits = false) :
      Quotes maxCount [lexeme] ⟨.saturated, lexeme.start, .ofList lexeme.text⟩

/-- The issues quote some lexemes from the first to the last, none of them twice. -/
inductive Quoted (maxCount : Nat) : List Lexeme → List Diagnostic → Prop
  | done : Quoted maxCount [] []
  | pass {lexeme : Lexeme} {found : List Lexeme} {issues : List Diagnostic}
      (h : Quoted maxCount found issues) : Quoted maxCount (lexeme :: found) issues
  | quote {row found : List Lexeme} {issue : Diagnostic} {issues : List Diagnostic}
      (hquote : issue.Quotes maxCount row) (h : Quoted maxCount found issues) :
      Quoted maxCount (row ++ found) (issue :: issues)

section Quoting
variable {maxCount : Nat} {found : List Lexeme} {issues : List Diagnostic}

theorem Quoted.append {behind : List Lexeme} {later : List Diagnostic}
    (h : Quoted maxCount found issues) (hbehind : Quoted maxCount behind later) :
    Quoted maxCount (found ++ behind) (issues ++ later) := by
  induction h with
  | done => exact hbehind
  | pass _ ih => exact .pass ih
  | quote hquote _ ih =>
    rw [List.append_assoc]
    exact .quote hquote ih

/-- An issue quotes a row of its own: the issues before it stay before that row, and those behind
it stay behind. -/
theorem Quoted.exists_row {issue : Diagnostic} (h : Quoted maxCount found issues)
    (hmem : issue ∈ issues) :
    ∃ before row after, found = before ++ (row ++ after) ∧ issue.Quotes maxCount row := by
  induction h with
  | done => cases hmem
  | @pass lexeme _ _ _ ih =>
    obtain ⟨before, row, after, rfl, hquote⟩ := ih hmem
    exact ⟨lexeme :: before, row, after, rfl, hquote⟩
  | @quote row _ _ _ hquote _ ih =>
    rcases List.mem_cons.mp hmem with rfl | hmore
    · exact ⟨[], row, _, rfl, hquote⟩
    · obtain ⟨before, other, after, rfl, hother⟩ := ih hmore
      exact ⟨row ++ before, other, after, (List.append_assoc ..).symm, hother⟩

/-- A count is looked at first, and then each of the other numbers. -/
theorem quoted_of_numerals {count : Option Numeral} {numbers : List Numeral}
    (h : numerals found = count.toList ++ numbers) :
    Quoted maxCount found (countIssues maxCount count ++ numbers.flatMap Numeral.saturation) := by
  induction found generalizing count numbers with
  | nil =>
    obtain ⟨hcount, rfl⟩ := List.append_eq_nil_iff.mp h.symm
    obtain rfl := Option.toList_eq_nil_iff.mp hcount
    exact .done
  | cons lexeme more ih =>
    by_cases hnumber : lexeme.token = .number
    · rw [numerals_number hnumber] at h
      cases count with
      | some number =>
        obtain ⟨rfl, hmore⟩ := List.cons.inj h
        have hrest : Quoted maxCount more (numbers.flatMap Numeral.saturation) :=
          @ih none numbers hmore
        rw [countIssues]
        split
        · exact .pass hrest
        · next hcount => exact .quote (.countFallback hnumber (Bool.eq_false_iff.mpr hcount)) hrest
      | none =>
        rw [Option.toList_none, List.nil_append] at h
        subst h
        have hrest : Quoted maxCount more ((numerals more).flatMap Numeral.saturation) :=
          @ih none (numerals more) rfl
        rw [countIssues, List.nil_append, List.flatMap_cons, Numeral.saturation]
        split
        · exact .pass hrest
        · next hfits => exact .quote (.saturated hnumber (Bool.eq_false_iff.mpr hfits)) hrest
    · rw [numerals_mark hnumber] at h
      exact .pass (ih h)

theorem quoted_segment {segment : Segment} {taken : List Lexeme} (h : segment.Takes taken) :
    Quoted maxCount taken (segment.issues maxCount) := by
  cases h with
  | term hspelled =>
    rw [Segment.issues, TermForm.issues_eq]
    exact quoted_of_numerals hspelled.numerals_eq
  | @skipped first more hmarks =>
    have h : Quoted maxCount (first :: more ++ []) _ := .quote (.skipped hmarks) .done
    rw [List.append_nil] at h
    exact h

theorem quoted_of_takes {segments : List Segment} {parts : List (List Lexeme)}
    (h : List.Forall₂ Segment.Takes segments parts) :
    Quoted maxCount parts.flatten (segments.flatMap (Segment.issues maxCount)) := by
  induction h with
  | nil => exact .done
  | cons hfirst _ ih => exact (quoted_segment hfirst).append ih

theorem quoted_segments (maxCount : Nat) (found : List Lexeme) :
    Quoted maxCount found ((segments found).flatMap (Segment.issues maxCount)) := by
  obtain ⟨parts, hparts, hflatten⟩ := takes_segments found
  have h : Quoted maxCount parts.flatten _ := quoted_of_takes hparts
  rw [hflatten] at h
  exact h

theorem quotes_of_mem_issues {segment : Segment} {issue : Diagnostic}
    (h : segment ∈ segments found) (hissue : issue ∈ segment.issues maxCount) :
    ∃ row, row <:+: found ∧ issue.Quotes maxCount row := by
  obtain ⟨before, row, after, hfound, hquote⟩ :=
    (quoted_segments maxCount found).exists_row (List.mem_flatMap.mpr ⟨segment, h, hissue⟩)
  exact ⟨row, ⟨before, after, (List.append_assoc ..).trans hfound.symm⟩, hquote⟩

end Quoting

/-! ## Quoted text -/

/-- At the start of a lexeme the visible text is cut between that lexeme and those before it. -/
theorem visible_at_start {text : List Char} {before after : List Lexeme} {lexeme : Lexeme}
    (h : lexemes text = before ++ lexeme :: after) :
    visible (text.take lexeme.start) = before.flatMap Lexeme.text ∧
      visible (text.drop lexeme.start) = (lexeme :: after).flatMap Lexeme.text := by
  have htext := tokenizes_lexemes text
  have hbefore := (htext.starts before lexeme after h).1
  have hcover := htext.cover
  rw [h, List.flatMap_append, ← hbefore] at hcover
  refine ⟨hbefore, (List.append_cancel_left (hcover.trans ?_)).symm⟩
  rw [← visible_append, List.take_append_drop]

/-- Lexemes in a row are the visible characters from the start of the first of them on. -/
theorem flatMap_text_isPrefix {text : List Char} {first : Lexeme} {more : List Lexeme}
    (h : first :: more <:+: lexemes text) :
    (first :: more).flatMap Lexeme.text <+: visible (text.drop first.start) := by
  obtain ⟨before, after, hfound⟩ := h
  rw [List.append_assoc, List.cons_append] at hfound
  rw [(visible_at_start hfound.symm).2, ← List.cons_append, List.flatMap_append]
  exact List.prefix_append ..

theorem exists_visible_at_start {text : List Char} {lexeme : Lexeme} (h : lexeme ∈ lexemes text) :
    ∃ c, text[lexeme.start]? = some c ∧ isBlank c = false := by
  obtain ⟨before, after, hfound⟩ := List.append_of_mem h
  exact (pointsAt_start hfound).1

namespace Diagnostic.Quotes
variable {maxCount : Nat} {row : List Lexeme} {issue : Diagnostic}

/-- An issue tells where its row starts and what the row says. -/
theorem row_eq (h : issue.Quotes maxCount row) :
    ∃ first more, row = first :: more ∧ issue.position = first.start ∧
      issue.text.toList = row.flatMap Lexeme.text := by
  cases h with
  | @skipped first more _ => exact ⟨first, more, rfl, rfl, String.toList_ofList⟩
  | @countFallback lexeme _ _ | @saturated lexeme _ _ =>
    refine ⟨lexeme, [], rfl, rfl, ?_⟩
    rw [List.flatMap_singleton]
    exact String.toList_ofList

theorem row_number (h : issue.Quotes maxCount row) (hkind : issue.kind ≠ .skipped) :
    ∃ lexeme, row = [lexeme] ∧ lexeme.token = .number := by
  cases h with
  | skipped _ => exact absurd rfl hkind
  | @countFallback lexeme hnumber _ | @saturated lexeme hnumber _ => exact ⟨lexeme, rfl, hnumber⟩

theorem isPrefix {text : List Char} (h : issue.Quotes maxCount row)
    (hrow : row <:+: lexemes text) :
    (∃ c, text[issue.position]? = some c ∧ isBlank c = false) ∧ issue.text ≠ "" ∧
      issue.text.toList <+: visible (text.drop issue.position) ∧
      (issue.kind ≠ .skipped → ∀ c ∈ issue.text.toList, c.isDigit = true) := by
  have hwords := (tokenizes_lexemes text).words
  obtain ⟨first, more, hfirst, hposition, htext⟩ := h.row_eq
  have hmem : first ∈ lexemes text := hrow.subset (hfirst ▸ List.mem_cons_self ..)
  refine ⟨hposition ▸ exists_visible_at_start hmem, fun hempty => ?_, ?_, fun hkind => ?_⟩
  · rw [hempty, hfirst, List.flatMap_cons] at htext
    exact (hwords first hmem).text_ne_nil (List.append_eq_nil_iff.mp htext.symm).1
  · rw [htext, hposition, hfirst]
    exact flatMap_text_isPrefix (hfirst ▸ hrow)
  · obtain ⟨lexeme, rfl, hnumber⟩ := h.row_number hkind
    obtain ⟨rfl, -⟩ := List.cons.inj hfirst
    rw [htext, List.flatMap_singleton]
    exact ((hwords lexeme hmem).1 hnumber).2

end Diagnostic.Quotes

end DiceNotation
