import DiceNotation.Proofs.LongestMatch
import DiceNotation.Proofs.Spacing
import DiceNotation.Proofs.StrictGrammar

/-!
How the visible characters of a text are shared out among the terms of its formula and the
stretches that were skipped between them.

* `TermSpelled.width_eq`: a term is as wide as the lexemes that spell it;
* `Placed text k segments`: each segment starts at the visible character behind those before it;
* `placed_segments` and `isChain_segments`: the segments of a text are placed, and no skipped
  stretch is right behind another;
* `plain_terms_of_ofSegments`, `diagnostics_of_ofSegments` and `skipped_of_ofSegments`: what a
  reading collects from its segments;
* `every_character_counted_once`: so each visible character is counted as recognized or as skipped,
  and each skipped stretch is told by one diagnostic.
-/
namespace DiceNotation
set_option autoImplicit false

/-! ## Widths -/

/-- How many visible characters some lexemes have. -/
def textWidth (lexemes : List Lexeme) : Nat := (lexemes.flatMap Lexeme.text).length

@[simp] theorem textWidth_nil : textWidth [] = 0 := rfl

@[simp] theorem textWidth_cons (lexeme : Lexeme) (more : List Lexeme) :
    textWidth (lexeme :: more) = lexeme.text.length + textWidth more := by
  rw [textWidth, List.flatMap_cons, List.length_append, textWidth]

@[simp] theorem textWidth_append (a b : List Lexeme) :
    textWidth (a ++ b) = textWidth a + textWidth b := by
  rw [textWidth, List.flatMap_append, List.length_append, textWidth, textWidth]

theorem Lexeme.IsWord.width_mark {lexeme : Lexeme} {token : Token} (h : lexeme.IsWord)
    (htoken : lexeme.token = token) (hmark : token ≠ .number) : lexeme.text.length = 1 := by
  obtain ⟨c, htext, -⟩ := h.2 fun hnumber => hmark (htoken.symm.trans hnumber)
  rw [htext, List.length_singleton]

theorem textWidth_pos {lexemes : List Lexeme} (hne : lexemes ≠ [])
    (hwords : ∀ lexeme ∈ lexemes, lexeme.IsWord) : 0 < textWidth lexemes := by
  cases lexemes with
  | nil => exact absurd rfl hne
  | cons lexeme more =>
    have hlexeme := List.length_pos_iff.mpr (hwords lexeme (List.mem_cons_self ..)).text_ne_nil
    rw [textWidth_cons]
    omega

section Spelled
variable {spelling : List Lexeme}

theorem SignSpelled.width_eq {sign : Option Sign} (h : SignSpelled sign spelling)
    (hwords : ∀ lexeme ∈ spelling, lexeme.IsWord) :
    optionWidth (fun _ => 1) sign = textWidth spelling := by
  cases h with
  | unwritten => rfl
  | plus hmark | minus hmark =>
    have hone := (List.forall_mem_singleton.mp hwords).width_mark hmark (by decide)
    rw [textWidth_cons, hone]
    rfl

theorem EntrySpelled.width_eq {entry : EntryForm} (h : EntrySpelled entry spelling)
    (hwords : ∀ lexeme ∈ spelling, lexeme.IsWord) : entry.width = textWidth spelling := by
  cases h with
  | plain hsign hvalue =>
    obtain ⟨hs, -⟩ := List.forall_mem_append.mp hwords
    rw [EntryForm.width, hsign.width_eq hs, textWidth_append, textWidth_cons]
    rfl
  | weighted hsign hvalue hcolon hweight =>
    obtain ⟨hs, hrest⟩ := List.forall_mem_append.mp hwords
    obtain ⟨hmark, -⟩ := List.forall_mem_cons.mp (List.forall_mem_cons.mp hrest).2
    have hone := hmark.width_mark hcolon (by decide)
    rw [EntryForm.width, hsign.width_eq hs]
    simp only [optionWidth, Numeral.width, Lexeme.numeral, textWidth_append, textWidth_cons,
      textWidth_nil, hone]
    omega

theorem EntriesSpelled.width_eq {entries : List EntryForm} (h : EntriesSpelled entries spelling)
    (hwords : ∀ lexeme ∈ spelling, lexeme.IsWord) :
    entriesWidth entries = textWidth spelling + 1 := by
  induction h with
  | last hentry => rw [entriesWidth, entriesWidth, hentry.width_eq hwords]
  | more hentry hcomma _ ih =>
    obtain ⟨he, hrest⟩ := List.forall_mem_append.mp hwords
    obtain ⟨hmark, hes⟩ := List.forall_mem_cons.mp hrest
    have hone := hmark.width_mark hcomma (by decide)
    rw [entriesWidth, hentry.width_eq he, ih hes, textWidth_append, textWidth_cons, hone]
    omega

theorem FacesSpelled.width_eq {faces : FacesForm} (h : FacesSpelled faces spelling)
    (hwords : ∀ lexeme ∈ spelling, lexeme.IsWord) : faces.width = textWidth spelling := by
  cases h with
  | count hnumber => rw [textWidth_cons]; rfl
  | fudge hletter =>
    have hone := (List.forall_mem_singleton.mp hwords).width_mark hletter (by decide)
    rw [textWidth_cons, hone]
    rfl
  | emptyList hleft hright =>
    obtain ⟨hl, hr⟩ := List.forall_mem_cons.mp hwords
    have hone := hl.width_mark hleft (by decide)
    have hone' := (List.forall_mem_singleton.mp hr).width_mark hright (by decide)
    rw [textWidth_cons, textWidth_cons, hone, hone']
    rfl
  | @list left right entries es hleft hentries hright =>
    obtain ⟨hl, hrest⟩ := List.forall_mem_cons.mp hwords
    obtain ⟨hes, hr⟩ := List.forall_mem_append.mp hrest
    have hone := hl.width_mark hleft (by decide)
    have hone' := (List.forall_mem_singleton.mp hr).width_mark hright (by decide)
    have hwidth : FacesForm.width (.list entries) = 1 + entriesWidth entries := by
      cases hentries <;> rfl
    rw [hwidth, hentries.width_eq hes, textWidth_cons, textWidth_append, textWidth_cons, hone,
      hone', textWidth_nil]

theorem BodySpelled.width_eq {body : BodyForm} (h : BodySpelled body spelling)
    (hwords : ∀ lexeme ∈ spelling, lexeme.IsWord) : body.width = textWidth spelling := by
  cases h with
  | flat hnumber => rw [textWidth_cons]; rfl
  | dice hletter hfaces =>
    obtain ⟨hmark, hf⟩ := List.forall_mem_cons.mp hwords
    have hone := hmark.width_mark hletter (by decide)
    rw [BodyForm.width, optionWidth, hfaces.width_eq hf, textWidth_cons, hone, Nat.zero_add]
  | counted hcount hletter hfaces =>
    obtain ⟨-, hrest⟩ := List.forall_mem_cons.mp hwords
    obtain ⟨hmark, hf⟩ := List.forall_mem_cons.mp hrest
    have hone := hmark.width_mark hletter (by decide)
    rw [BodyForm.width, optionWidth, hfaces.width_eq hf, textWidth_cons, textWidth_cons, hone,
      Nat.add_assoc]
    rfl

theorem TermSpelled.width_eq {form : TermForm} (h : TermSpelled form spelling)
    (hwords : ∀ lexeme ∈ spelling, lexeme.IsWord) : form.width = textWidth spelling := by
  obtain ⟨hsign, hbody, -⟩ := h
  obtain ⟨hs, hb⟩ := List.forall_mem_append.mp hwords
  rw [TermForm.width, hsign.width_eq hs, hbody.width_eq hb, textWidth_append]

end Spelled

/-! ## Where segments stand -/

namespace Segment

/-- The offset of the first character. -/
def start : Segment → Nat
  | .term form => form.start
  | .skipped first _ => first.start

def width (segment : Segment) : Nat := segment.recognized + segment.skippedWidth

end Segment

/-- The segments cover the visible characters of a text from number `k` on, each of them at least
one, and each starts where the one before it ends. -/
inductive Placed (text : List Char) : Nat → List Segment → Prop
  | done : Placed text (visible text).length []
  | next {k : Nat} {segment : Segment} {more : List Segment}
      (hstart : PointsAt text segment.start k) (hwidth : 0 < segment.width)
      (hmore : Placed text (k + segment.width) more) : Placed text k (segment :: more)

theorem Placed.tail {text : List Char} {k : Nat} {segment : Segment} {more : List Segment}
    (h : Placed text k (segment :: more)) : Placed text (k + segment.width) more := by
  cases h with
  | next _ _ hmore => exact hmore

theorem TermSpelled.start_eq {form : TermForm} {first : Lexeme} {more : List Lexeme}
    (h : TermSpelled form (first :: more)) : form.start = first.start := by
  generalize hspelling : first :: more = spelling at h
  obtain ⟨-, -, hstart⟩ := h
  rw [← hspelling, List.head?_cons, Option.map_some, Option.some.injEq] at hstart
  exact hstart.symm

section Placing
variable {text : List Char}

/-- A skipped lexeme joins the skipped stretch behind it, if there is one. -/
theorem placed_skip {lexeme : Lexeme} {k : Nat} {found : List Segment}
    (hstart : PointsAt text lexeme.start k) (hpos : 0 < lexeme.text.length)
    (h : Placed text (k + lexeme.text.length) found) :
    Placed text k (Segment.skip lexeme found) := by
  have hwidth (more : List Lexeme) : (Segment.skipped lexeme more).width =
      lexeme.text.length + textWidth more := by
    rw [Segment.width, Segment.recognized, Segment.skippedWidth, Nat.zero_add]
    exact textWidth_cons lexeme more
  have halone := hwidth []
  rw [textWidth_nil, Nat.add_zero] at halone
  cases found with
  | nil => exact .next hstart (by omega) (by rwa [halone])
  | cons segment others =>
    cases segment with
    | term form => exact .next hstart (by omega) (by rwa [halone])
    | skipped first more =>
      have hjoined := hwidth (first :: more)
      have hfirst : (Segment.skipped first more).width = textWidth (first :: more) :=
        Nat.zero_add _
      have hmore := h.tail
      rw [hfirst, Nat.add_assoc, ← hjoined] at hmore
      exact .next hstart (by omega) hmore

/-- The segments of the lexemes behind `front` are placed behind the characters of `front`. -/
theorem placed_behind {front found : List Lexeme} (h : lexemes text = front ++ found) :
    Placed text (textWidth front) (segments found) := by
  have hwords : ∀ lexeme ∈ found, lexeme.IsWord := fun lexeme hlexeme =>
    (tokenizes_lexemes text).words lexeme (h ▸ List.mem_append_right front hlexeme)
  fun_induction segments found generalizing front with
  | case1 =>
    have hcover : textWidth front = (visible text).length := by
      rw [← (tokenizes_lexemes text).cover, h, List.append_nil, textWidth]
    rw [hcover]
    exact .done
  | case2 lexeme more form rest htake ih =>
    obtain ⟨taken, htaken, hspelled⟩ := takeTerm_spelled htake
    obtain ⟨first, others, rfl⟩ := List.exists_cons_of_ne_nil hspelled.ne_nil
    obtain ⟨rfl, rfl⟩ := List.cons.inj htaken
    have hword : ∀ other ∈ lexeme :: others, other.IsWord := fun other hother =>
      hwords other (htaken ▸ List.mem_append_left rest hother)
    have hwidth : (Segment.term form).width = textWidth (lexeme :: others) :=
      hspelled.width_eq hword
    refine .next ?_ ?_ ?_
    · show PointsAt text form.start _
      rw [hspelled.start_eq]
      exact pointsAt_start h
    · rw [hwidth]
      exact textWidth_pos (List.cons_ne_nil lexeme others) hword
    · rw [hwidth, ← textWidth_append]
      exact ih (by rw [h, List.append_assoc]; rfl) fun other hother =>
        hwords other (htaken ▸ List.mem_append_right _ hother)
  | case3 lexeme more hnone ih =>
    obtain ⟨hlexeme, hmore⟩ := List.forall_mem_cons.mp hwords
    have hbehind : lexemes text = (front ++ [lexeme]) ++ more := by
      rw [h, List.append_assoc]
      rfl
    have hrest := ih hbehind hmore
    rw [textWidth_append, textWidth_cons, textWidth_nil, Nat.add_zero] at hrest
    exact placed_skip (pointsAt_start h) (List.length_pos_iff.mpr hlexeme.text_ne_nil) hrest

theorem placed_segments (text : List Char) : Placed text 0 (segments (lexemes text)) :=
  placed_behind (List.nil_append _).symm

/-- No segment starts before the characters that its list covers. -/
theorem Placed.le_of_mem {k : Nat} {found : List Segment} (h : Placed text k found) :
    ∀ segment ∈ found, k ≤ (visible (text.take segment.start)).length := by
  induction h with
  | done => exact List.forall_mem_nil _
  | next hstart _ _ ih =>
    refine List.forall_mem_cons.mpr ⟨Nat.le_of_eq hstart.2.symm, fun segment hsegment => ?_⟩
    have hle := ih segment hsegment
    omega

end Placing

/-! ## What a reading collects -/

def Diagnostic.isSkip (diagnostic : Diagnostic) : Bool := diagnostic.kind = .skipped

/-- The diagnostics of the skipped stretches, in order. -/
def Formula.skips (formula : Formula) : List Diagnostic :=
  formula.diagnostics.filter Diagnostic.isSkip

/-- What is told of a segment if it is skipped. -/
def Segment.skips : Segment → List Diagnostic
  | .term _ => []
  | .skipped first more =>
    [⟨.skipped, first.start, String.ofList ((first :: more).flatMap Lexeme.text)⟩]

/-- Nothing is skipped inside a term. -/
theorem filter_isSkip_issues (maxCount : Nat) (segment : Segment) :
    (segment.issues maxCount).filter Diagnostic.isSkip = segment.skips := by
  cases segment with
  | skipped first more => rfl
  | term form =>
    have hcount : (countIssues maxCount form.body.count?).filter Diagnostic.isSkip = [] := by
      cases form.body.count? with
      | none => rfl
      | some number =>
        rw [countIssues]
        split <;> rfl
    have hnumber (number : Numeral) : number.saturation.filter Diagnostic.isSkip = [] := by
      rw [Numeral.saturation]
      split <;> rfl
    rw [Segment.issues, TermForm.issues_eq, List.filter_append, hcount, List.filter_flatMap,
      List.nil_append]
    exact List.flatMap_eq_nil_iff.mpr fun number _ => hnumber number

section Collecting
variable {options : ReadOptions} {found : List Segment} {formula : Formula}

theorem report_eq_ok {issues diagnostics : List Diagnostic}
    (h : options.report issues = .ok diagnostics) : diagnostics = issues := by
  obtain ⟨strict, maxCount⟩ := options
  cases strict with
  | true =>
    obtain ⟨rfl, rfl⟩ := report_strict_eq_ok h
    rfl
  | false =>
    rw [report_lenient] at h
    cases h
    rfl

theorem plain_terms_of_segment {segment : Segment} {maxCount : Nat} {terms : List Term}
    (h : segment.terms maxCount = .ok terms) :
    terms.map Term.plain = segment.forms.map (TermForm.plain (.tolerant maxCount)) := by
  cases segment with
  | skipped first more =>
    cases h
    rfl
  | term form =>
    obtain ⟨term, hterm, rfl⟩ := terms_eq_ok h
    exact congrArg (fun plain => [plain]) (TermForm.term_eq_ok_iff.mp hterm)

theorem plain_terms_of_ofSegments (h : Formula.ofSegments options found = .ok formula) :
    formula.terms.map Term.plain =
      (found.flatMap Segment.forms).map (TermForm.plain (.tolerant options.maxCount)) := by
  induction found generalizing formula with
  | nil =>
    cases h
    rfl
  | cons segment more ih =>
    obtain ⟨diagnostics, terms, rest, -, hterms, hmore, rfl⟩ := ofSegments_cons_eq_ok h
    rw [List.flatMap_cons, List.map_append, List.map_append, ih hmore,
      plain_terms_of_segment hterms]

theorem diagnostics_of_ofSegments (h : Formula.ofSegments options found = .ok formula) :
    formula.diagnostics = found.flatMap (Segment.issues options.maxCount) := by
  induction found generalizing formula with
  | nil =>
    cases h
    rfl
  | cons segment more ih =>
    obtain ⟨diagnostics, terms, rest, hreport, -, hmore, rfl⟩ := ofSegments_cons_eq_ok h
    rw [List.flatMap_cons, ← ih hmore, report_eq_ok hreport]

theorem skips_of_ofSegments (h : Formula.ofSegments options found = .ok formula) :
    formula.skips = found.flatMap Segment.skips := by
  rw [Formula.skips, diagnostics_of_ofSegments h, List.filter_flatMap]
  simp only [filter_isSkip_issues]

theorem skipped_of_ofSegments (h : Formula.ofSegments options found = .ok formula) :
    formula.skipped = (formula.skips.flatMap fun skip => skip.text.toList).length := by
  have hsegment (segment : Segment) :
      (segment.skips.flatMap fun skip => skip.text.toList).length = segment.skippedWidth := by
    cases segment with
    | term form => rfl
    | skipped first more =>
      simp only [Segment.skips, Segment.skippedWidth, List.flatMap_singleton, String.toList_ofList]
  rw [skips_of_ofSegments h]
  induction found generalizing formula with
  | nil =>
    cases h
    rfl
  | cons segment more ih =>
    obtain ⟨diagnostics, terms, rest, -, -, hmore, rfl⟩ := ofSegments_cons_eq_ok h
    rw [List.flatMap_cons, List.flatMap_append, List.length_append, hsegment, ← ih hmore]

/-- Each term takes at least one visible character, and terms and skipped stretches take all. -/
theorem Placed.counts {text : List Char} {k : Nat} (hplaced : Placed text k found)
    (h : Formula.ofSegments options found = .ok formula) :
    k + (formula.recognized + formula.skipped) = (visible text).length ∧
      formula.terms.length ≤ formula.recognized := by
  induction hplaced generalizing formula with
  | done =>
    cases h
    exact ⟨rfl, Nat.le_refl 0⟩
  | @next k segment more _ hwidth _ ih =>
    obtain ⟨diagnostics, terms, rest, -, hterms, hmore, rfl⟩ := ofSegments_cons_eq_ok h
    obtain ⟨htotal, hle⟩ := ih hmore
    have hlength : terms.length ≤ segment.recognized := by
      cases segment with
      | skipped first others =>
        cases hterms
        exact Nat.zero_le _
      | term form =>
        obtain ⟨term, -, rfl⟩ := terms_eq_ok hterms
        exact hwidth
    simp only [Segment.width, List.length_append] at htotal ⊢
    omega

end Collecting

/-! ## Skipped stretches are apart -/

/-- Of two neighbours one is a term. -/
def Segment.Apart (a b : Segment) : Prop := a.forms = [] → b.forms ≠ []

theorem isChain_skip {lexeme : Lexeme} {found : List Segment} (h : found.IsChain Segment.Apart) :
    (Segment.skip lexeme found).IsChain Segment.Apart := by
  cases found with
  | nil => exact .singleton _
  | cons segment others =>
    cases segment with
    | term form => exact .cons_cons (fun _ => List.cons_ne_nil _ _) h
    | skipped first more =>
      cases h with
      | singleton => exact .singleton _
      | cons_cons hnext hothers => exact .cons_cons hnext hothers

theorem isChain_segments (found : List Lexeme) : (segments found).IsChain Segment.Apart := by
  fun_induction segments found with
  | case1 => exact .nil
  | case2 lexeme more form rest htake ih =>
    cases hrest : segments rest with
    | nil => exact .singleton _
    | cons next others =>
      rw [hrest] at ih
      exact .cons_cons (fun hforms => absurd hforms (List.cons_ne_nil _ _)) ih
  | case3 lexeme more hnone ih => exact isChain_skip ih

section Apart
variable {found : List Segment}

/-- There is at most one skipped stretch more than there are terms, and none more if a term is
first. -/
theorem length_skips_le (h : found.IsChain Segment.Apart) :
    (found.flatMap Segment.skips).length ≤ (found.flatMap Segment.forms).length + 1 ∧
      ((∀ segment ∈ found.head?, segment.forms ≠ []) →
        (found.flatMap Segment.skips).length ≤ (found.flatMap Segment.forms).length) := by
  induction found with
  | nil => exact ⟨Nat.zero_le _, fun _ => Nat.le_refl _⟩
  | cons segment more ih =>
    obtain ⟨hmore, hhead⟩ := ih h.tail
    rw [List.flatMap_cons, List.flatMap_cons, List.length_append, List.length_append]
    cases segment with
    | term form =>
      simp only [Segment.skips, Segment.forms, List.length_nil, List.length_singleton]
      exact ⟨by omega, fun _ => by omega⟩
    | skipped first others =>
      have hnext : ∀ next ∈ more.head?, next.forms ≠ [] := by
        cases h with
        | singleton => exact fun _ hnil => by cases hnil
        | cons_cons hnext _ => rintro _ ⟨⟩; exact hnext rfl
      have hle := hhead hnext
      simp only [Segment.skips, Segment.forms, List.length_nil, List.length_singleton]
      exact ⟨by omega, fun hfirst => absurd rfl (hfirst _ rfl)⟩

variable {text : List Char} {k : Nat}

theorem lt_of_visible_lt {p q : Nat}
    (h : (visible (text.take p)).length < (visible (text.take q)).length) : p < q := by
  by_contra hge
  have hle : (visible (text.take q)).length ≤ (visible (text.take p)).length :=
    ((List.take_sublist_take_left (Nat.le_of_not_lt hge)).filter _).length_le
  omega

theorem Placed.start_lt {segment : Segment} (h : Placed text k (segment :: found)) :
    ∀ later ∈ found, segment.start < later.start := by
  intro later hlater
  have hle := h.tail.le_of_mem later hlater
  cases h with
  | next hstart hwidth _ =>
    have hcount := hstart.2
    have hlt : (visible (text.take segment.start)).length <
        (visible (text.take later.start)).length := by omega
    exact lt_of_visible_lt hlt

theorem position_of_mem_skips {segment : Segment} {skip : Diagnostic}
    (h : skip ∈ segment.skips) : skip.position = segment.start := by
  cases segment with
  | term form => cases h
  | skipped first more =>
    cases List.mem_singleton.mp h
    rfl

/-- One of the terms starts between the two. -/
def TermBetween (forms : List TermForm) (a b : Diagnostic) : Prop :=
  ∃ form ∈ forms, a.position < form.start ∧ form.start < b.position

theorem TermBetween.append {forms : List TermForm} {a b : Diagnostic} (h : TermBetween forms a b)
    (before : List TermForm) : TermBetween (before ++ forms) a b := by
  obtain ⟨form, hform, hbetween⟩ := h
  exact ⟨form, List.mem_append_right before hform, hbetween⟩

theorem Placed.isChain_skips (hplaced : Placed text k found) (h : found.IsChain Segment.Apart) :
    (found.flatMap Segment.skips).IsChain (TermBetween (found.flatMap Segment.forms)) := by
  induction found generalizing k with
  | nil => exact .nil
  | cons segment more ih =>
    have hmore := (ih hplaced.tail h.tail).imp fun a b hbetween =>
      TermBetween.append hbetween segment.forms
    rw [List.flatMap_cons, List.flatMap_cons]
    cases segment with
    | term form => exact hmore
    | skipped first others =>
      refine List.isChain_cons.mpr ⟨fun b hb => ?_, hmore⟩
      obtain ⟨later, hlater, hskip⟩ := List.mem_flatMap.mp (List.mem_of_mem_head? hb)
      -- The neighbour of the stretch is a term, so the next stretch is behind that.
      cases more with
      | nil => cases hlater
      | cons next rest =>
        cases next with
        | skipped => exact absurd rfl (h.rel rfl)
        | term form =>
          have hfirst := hplaced.start_lt (.term form) (List.mem_cons_self ..)
          rcases List.mem_cons.mp hlater with rfl | hrest
          · cases hskip
          · have hnext := hplaced.tail.start_lt later hrest
            rw [← position_of_mem_skips hskip] at hnext
            exact ⟨form, List.mem_cons_self .., hfirst, hnext⟩

end Apart

/-! ## The account of a text -/

/-- Each visible character of a text is counted once, as part of a term or as skipped, and a term
has at least one; the skipped ones are those that the diagnostics of skipped stretches quote; and
between two such stretches a term starts, so there is at most one stretch more than there are
terms. -/
theorem every_character_counted_once {text : String} {options : ReadOptions} {formula : Formula}
    (h : Formula.ofText text options = .ok formula) :
    formula.recognized + formula.skipped = (visible text.toList).length ∧
    formula.skipped = (formula.skips.flatMap fun skip => skip.text.toList).length ∧
    formula.terms.length ≤ formula.recognized ∧
    formula.skips.length ≤ formula.terms.length + 1 ∧
    ∃ forms, LongestCut (lexemes text.toList) forms ∧
      formula.terms.map Term.plain = forms.map (TermForm.plain (.tolerant options.maxCount)) ∧
      formula.skips.IsChain (TermBetween forms) := by
  have hplaced := placed_segments text.toList
  have hapart := isChain_segments (lexemes text.toList)
  have hterms := plain_terms_of_ofSegments h
  obtain ⟨htotal, hrecognized⟩ := hplaced.counts h
  have hlength := congrArg List.length hterms
  rw [List.length_map, List.length_map] at hlength
  refine ⟨by omega, skipped_of_ofSegments h, hrecognized, ?_, _, longestCut_segments _, hterms, ?_⟩
  · rw [skips_of_ofSegments h, hlength]
    exact (length_skips_le hapart).1
  · rw [skips_of_ofSegments h]
    exact hplaced.isChain_skips hapart

/-- Three stretches around two terms, the second of them with a blank inside. -/
theorem every_character_counted_once_mixed : ∃ formula forms,
    Formula.ofText "x 2d6 y z 3 w" = .ok formula ∧
    formula.skips.map Diagnostic.text = ["x", "yz", "w"] ∧ formula.terms.length = 2 ∧
    formula.recognized + formula.skipped = 8 ∧
    LongestCut (lexemes "x 2d6 y z 3 w".toList) forms ∧
    formula.skips.IsChain (TermBetween forms) := by
  have hskips : ((Formula.ofText "x 2d6 y z 3 w").map fun formula =>
      (formula.skips.map Diagnostic.text, formula.terms.length)).toOption =
        some (["x", "yz", "w"], 2) := by decide +kernel
  have hvisible : (visible "x 2d6 y z 3 w".toList).length = 8 := by decide
  cases hread : Formula.ofText "x 2d6 y z 3 w" with
  | error error =>
    rw [hread] at hskips
    cases hskips
  | ok formula =>
    rw [hread] at hskips
    obtain ⟨htexts, hterms⟩ := Prod.mk.inj (Option.some.inj hskips)
    obtain ⟨htotal, -, -, -, forms, hcut, -, hchain⟩ := every_character_counted_once hread
    exact ⟨formula, forms, rfl, htexts, hterms, htotal.trans hvisible, hcut, hchain⟩

end DiceNotation
