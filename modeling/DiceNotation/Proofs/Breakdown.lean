import DiceNotation.Proofs.Supply
import DiceNotation.Proofs.Totals
import Mathlib.Data.List.Basic

/-!
What a breakdown tells of the roll that it was written for.

A breakdown is the text of the terms with a group, in parentheses, behind every term that is no
modifier. Nothing else in it has parentheses, so the text and the groups come apart again, and the
values can be read off their group.

* `outsideGroups` and `groupsOf`: any text without its groups, and the groups;
* `outsideGroups_breakdown` and `groupsOf_breakdown`: both of them for a breakdown;
* `rollsByTerm`: the rolls of an outcome, cut by the counts of the terms;
* `breakdown_eq_iff`: two breakdowns of the same terms are equal just if the rolls are;
* `breakdown_agrees_with_rolls`: so breakdown, rolls and canonical text agree.
-/
namespace DiceNotation
set_option autoImplicit false

/-! ## Texts with groups -/

/-- A text without its groups, read from inside of a group or not. -/
def outsideGroups (inside : Bool) : List Char → List Char
  | [] => []
  | c :: more =>
    if inside then outsideGroups (c != ')') more
    else if c = '(' then outsideGroups true more
    else c :: outsideGroups false more

/-- What stands in the groups of a text. A group that is open already has begun with some
characters; one that is not closed does not count. -/
def groupsOf : Option (List Char) → List Char → List (List Char)
  | _, [] => []
  | none, c :: more => groupsOf (if c = '(' then some [] else none) more
  | some begun, c :: more =>
    if c = ')' then begun :: groupsOf none more else groupsOf (some (begun ++ [c])) more

section Scanning
variable {word : List Char} (rest : List Char)

theorem outsideGroups_append (h : '(' ∉ word) :
    outsideGroups false (word ++ rest) = word ++ outsideGroups false rest := by
  induction word with
  | nil => rfl
  | cons c more ih =>
    obtain ⟨hc, hmore⟩ := List.ne_and_not_mem_of_not_mem_cons h
    simp [outsideGroups, Ne.symm hc, ih hmore]

theorem outsideGroups_inside (h : ')' ∉ word) :
    outsideGroups true (word ++ ')' :: rest) = outsideGroups false rest := by
  induction word with
  | nil => rfl
  | cons c more ih =>
    obtain ⟨hc, hmore⟩ := List.ne_and_not_mem_of_not_mem_cons h
    simp [outsideGroups, bne_iff_ne.mpr (Ne.symm hc), ih hmore]

theorem groupsOf_append (h : '(' ∉ word) : groupsOf none (word ++ rest) = groupsOf none rest := by
  induction word with
  | nil => rfl
  | cons c more ih =>
    obtain ⟨hc, hmore⟩ := List.ne_and_not_mem_of_not_mem_cons h
    simp [groupsOf, Ne.symm hc, ih hmore]

theorem groupsOf_inside (h : ')' ∉ word) (begun : List Char) :
    groupsOf (some begun) (word ++ ')' :: rest) = (begun ++ word) :: groupsOf none rest := by
  induction word generalizing begun with
  | nil => simp [groupsOf]
  | cons c more ih =>
    obtain ⟨hc, hmore⟩ := List.ne_and_not_mem_of_not_mem_cons h
    simp [groupsOf, Ne.symm hc, ih hmore]

end Scanning

example : groupsOf none "-2d6(3,5) + 3".toList = ["3,5".toList] := by decide

/-! ## Characters of numbers and terms -/

section Characters
variable {c : Char}

theorem not_mem_digits (h : c.isDigit = false) (n : Nat) : c ∉ Decimal.digits n := by
  intro hmem
  rw [Decimal.isDigit_of_mem_digits hmem] at h
  cases h

theorem not_mem_scoreSpelling (hdigit : c.isDigit = false) (hminus : c ≠ '-') (a : Score) :
    c ∉ a.spelling := by
  unfold Score.spelling
  split <;> simp [hminus, not_mem_digits hdigit]

theorem not_mem_commaSeparated (hcomma : c ≠ ',') {parts : List (List Char)}
    (h : ∀ part ∈ parts, c ∉ part) : c ∉ commaSeparated parts := by
  induction parts with
  | nil => exact List.not_mem_nil
  | cons part more ih =>
    obtain ⟨hpart, hmore⟩ := List.forall_mem_cons.mp h
    cases more with
    | nil => exact hpart
    | cons next others => simp [commaSeparated, hpart, hcomma, ih hmore]

theorem not_mem_scores (hdigit : c.isDigit = false) (hminus : c ≠ '-') (hcomma : c ≠ ',')
    (values : List Score) : c ∉ commaSeparated (values.map Score.spelling) :=
  not_mem_commaSeparated hcomma
    (List.forall_mem_map.mpr fun value _ => not_mem_scoreSpelling hdigit hminus value)

end Characters

theorem open_not_mem_dieSpelling (die : Die) : '(' ∉ die.spelling := by
  have hscore (a : Score) : '(' ∉ a.spelling := not_mem_scoreSpelling (by decide) (by decide) a
  have hdigits (n : Nat) : '(' ∉ Decimal.digits n := not_mem_digits (by decide) n
  cases die with
  | standard faces => simp [Die.spelling, hdigits]
  | custom list =>
    have hlist := not_mem_scores (c := '(') (by decide) (by decide) (by decide) list.values
    simp [Die.spelling, hlist]
  | weighted table =>
    have hentries : '(' ∉ commaSeparated (table.entries.map Die.entrySpelling) :=
      not_mem_commaSeparated (by decide) <| List.forall_mem_map.mpr fun entry _ => by
        simp [Die.entrySpelling, hscore, hdigits]
    simp [Die.spelling, hentries]
  | constant value => exact hscore value

theorem open_not_mem_termSpelling (term : Term) : '(' ∉ term.spelling := by
  unfold Term.spelling
  split
  · exact not_mem_scoreSpelling (by decide) (by decide) _
  · simp [not_mem_digits, open_not_mem_dieSpelling]

theorem open_not_mem_operator (leading : Bool) (sign : Sign) : '(' ∉ sign.operator leading := by
  cases sign <;> cases leading <;> decide

/-! ## Values that are read back -/

theorem Decimal.digits_injective : Function.Injective Decimal.digits :=
  Function.LeftInverse.injective Decimal.value_digits

theorem minus_mem_spelling (a : Score) : '-' ∈ a.spelling ↔ a.toInt < 0 := by
  unfold Score.spelling
  by_cases h : a.toInt < 0
  · simp [h]
  · simp [h, not_mem_digits (c := '-') (by decide)]

theorem Score.spelling_injective : Function.Injective Score.spelling := by
  intro a b h
  have hsign : a.toInt < 0 ↔ b.toInt < 0 := by
    rw [← minus_mem_spelling, ← minus_mem_spelling, h]
  unfold Score.spelling at h
  by_cases ha : a.toInt < 0
  · rw [if_pos ha, if_pos (hsign.mp ha)] at h
    have habs := Decimal.digits_injective (List.cons.inj h).2
    exact Score.ext (by omega)
  · rw [if_neg ha, if_neg (fun hb => ha (hsign.mpr hb))] at h
    have habs := Decimal.digits_injective h
    exact Score.ext (by omega)

theorem commaSeparated_eq_intercalate (parts : List (List Char)) :
    commaSeparated parts = [','].intercalate parts := by
  induction parts with
  | nil => rfl
  | cons part more ih =>
    cases more with
    | nil => simp [commaSeparated]
    | cons next others => simp [commaSeparated, ih, List.intercalate_cons_cons]

theorem splitOn_commaSeparated {parts : List (List Char)} (hne : parts ≠ [])
    (h : ∀ part ∈ parts, ',' ∉ part) : (commaSeparated parts).splitOn ',' = parts := by
  rw [commaSeparated_eq_intercalate]
  exact List.splitOn_intercalate ',' h hne

/-- The comma-joined values, of which there is at least one, tell which values they are. -/
theorem commaSeparated_scores_inj {values values' : List Score} (hne : values ≠ [])
    (hne' : values' ≠ []) (h : commaSeparated (values.map Score.spelling) =
      commaSeparated (values'.map Score.spelling)) : values = values' := by
  have hcomma (scores : List Score) : ∀ part ∈ scores.map Score.spelling, ',' ∉ part :=
    List.forall_mem_map.mpr fun a _ => not_mem_scoreSpelling (by decide) (by decide) a
  have hsplit := congrArg (List.splitOn ',') h
  rw [splitOn_commaSeparated (by simpa using hne) (hcomma values),
    splitOn_commaSeparated (by simpa using hne') (hcomma values')] at hsplit
  exact (List.map_inj_right Score.spelling_injective).mp hsplit

/-! ## The parts of a breakdown -/

/-- The values of a term as its group shows them. -/
def TermRoll.shown (roll : TermRoll) : List Char :=
  commaSeparated (roll.values.map Score.spelling)

theorem outsideGroups_breakdown (leading : Bool) (rolled : List TermRoll) :
    outsideGroups false (TermRoll.breakdown leading rolled) =
      termsSpelling leading (rolled.map TermRoll.term) := by
  induction rolled generalizing leading with
  | nil => rfl
  | cons roll more ih =>
    have hgroup (rest : List Char) :
        outsideGroups false (roll.group ++ rest) = outsideGroups false rest := by
      unfold TermRoll.group
      split
      · rfl
      · have hclose := not_mem_scores (c := ')') (by decide) (by decide) (by decide) roll.values
        simpa [outsideGroups] using outsideGroups_inside rest hclose
    simp only [TermRoll.breakdown, List.map_cons, termsSpelling, List.append_assoc]
    rw [outsideGroups_append _ (open_not_mem_operator leading roll.term.sign),
      outsideGroups_append _ (open_not_mem_termSpelling roll.term), hgroup, ih]

theorem groupsOf_breakdown (leading : Bool) (rolled : List TermRoll) :
    groupsOf none (TermRoll.breakdown leading rolled) =
      (rolled.filter fun roll => !roll.term.die.isConstant).map TermRoll.shown := by
  induction rolled generalizing leading with
  | nil => rfl
  | cons roll more ih =>
    simp only [TermRoll.breakdown, List.append_assoc]
    rw [groupsOf_append _ (open_not_mem_operator leading roll.term.sign),
      groupsOf_append _ (open_not_mem_termSpelling roll.term)]
    by_cases hdie : roll.term.die.isConstant = true
    · simp [TermRoll.group, hdie, ih]
    · have hclose := not_mem_scores (c := ')') (by decide) (by decide) (by decide) roll.values
      have hgroup := groupsOf_inside (TermRoll.breakdown false more) hclose []
      simp only [Bool.not_eq_true] at hdie
      simpa [TermRoll.group, TermRoll.shown, groupsOf, hdie, ih] using hgroup

/-! ## Rolls by terms -/

/-- The rolls of each term: as many as it counts, term after term. -/
def rollsByTerm : List Term → List DieRoll → List (List DieRoll)
  | [], _ => []
  | term :: more, rolls => rolls.take term.count :: rollsByTerm more (rolls.drop term.count)

variable {rolled rolled' : List TermRoll}

theorem rollsByTerm_dieRolls (h : ∀ roll ∈ rolled, roll.term.IsRolled roll.values) :
    rollsByTerm (rolled.map TermRoll.term) (rolled.flatMap TermRoll.dieRolls) =
      rolled.map TermRoll.dieRolls := by
  induction rolled with
  | nil => rfl
  | cons roll more ih =>
    obtain ⟨hroll, hmore⟩ := List.forall_mem_cons.mp h
    have hlength : roll.dieRolls.length = roll.term.count := by
      rw [TermRoll.dieRolls, List.length_map, hroll.length_eq]
    simp [rollsByTerm, ← hlength, ih hmore]

theorem die_sign_of_dieRolls (h : ∀ roll ∈ rolled, roll.term.IsRolled roll.values) :
    (rolled.flatMap TermRoll.dieRolls).map (fun roll => (roll.die, roll.sign)) =
      (rolled.map TermRoll.term).flatMap fun term =>
        List.replicate term.count (term.die, term.sign) := by
  rw [List.map_flatMap, List.flatMap_map]
  refine List.flatMap_congr fun roll hroll => ?_
  rw [TermRoll.dieRolls, List.map_map, ← (h roll hroll).length_eq, ← List.map_const']
  rfl

theorem map_value_dieRolls (roll : TermRoll) : roll.dieRolls.map DieRoll.value = roll.values := by
  simp [TermRoll.dieRolls, Function.comp_def]

theorem eq_of_values (hterms : rolled.map TermRoll.term = rolled'.map TermRoll.term)
    (hvalues : rolled.map TermRoll.values = rolled'.map TermRoll.values) : rolled = rolled' := by
  have hzip (rolls : List TermRoll) :
      rolls = List.zipWith TermRoll.mk (rolls.map TermRoll.term) (rolls.map TermRoll.values) := by
    simp [List.zipWith_map_left, List.zipWith_map_right]
  rw [hzip rolled, hterms, hvalues, ← hzip rolled']

/-! ## Equal breakdowns and equal rolls -/

/-- A modifier is rolled in one way only. -/
theorem Term.IsRolled.eq_replicate {term : Term} {values : List Score} (h : term.IsRolled values)
    (hdie : term.die.isConstant = true) : values = List.replicate term.count term.die.least := by
  refine List.eq_replicate_iff.mpr ⟨h.length_eq, fun value hvalue => ?_⟩
  have hmem := h.possible value hvalue
  cases hkind : term.die with
  | constant face =>
    rw [hkind] at hmem
    exact List.mem_singleton.mp hmem
  | standard | custom | weighted =>
    rw [hkind] at hdie
    cases hdie

theorem Term.IsRolled.ne_nil {term : Term} {values : List Score} (h : term.IsRolled values) :
    values ≠ [] := by
  intro hnil
  have hlength := h.length_eq
  have hpos := term.count_pos
  rw [hnil, List.length_nil] at hlength
  omega

/-- The groups tell the values: a group for each term that is no modifier, in order. -/
theorem eq_of_shown (h : ∀ roll ∈ rolled, roll.term.IsRolled roll.values)
    (h' : ∀ roll ∈ rolled', roll.term.IsRolled roll.values)
    (hterms : rolled.map TermRoll.term = rolled'.map TermRoll.term)
    (hshown : (rolled.filter fun roll => !roll.term.die.isConstant).map TermRoll.shown =
      (rolled'.filter fun roll => !roll.term.die.isConstant).map TermRoll.shown) :
    rolled = rolled' := by
  induction rolled generalizing rolled' with
  | nil => exact (List.map_eq_nil_iff.mp hterms.symm).symm
  | cons roll more ih =>
    obtain ⟨roll', more', rfl, hterm, hterms'⟩ := List.map_eq_cons_iff.mp hterms.symm
    obtain ⟨hroll, hmore⟩ := List.forall_mem_cons.mp h
    obtain ⟨hroll', hmore'⟩ := List.forall_mem_cons.mp h'
    obtain ⟨term, values⟩ := roll
    obtain ⟨term', values'⟩ := roll'
    obtain rfl : term' = term := hterm
    by_cases hdie : term'.die.isConstant = true
    · have hvalues : values = values' :=
        (hroll.eq_replicate hdie).trans (hroll'.eq_replicate hdie).symm
      simp only [List.filter_cons, hdie, Bool.not_true, Bool.false_eq_true, if_false] at hshown
      rw [hvalues, ih hmore hmore' hterms'.symm hshown]
    · simp only [List.filter_cons, hdie, Bool.not_false, if_true, List.map_cons,
        List.cons.injEq] at hshown
      have hvalues : values = values' :=
        commaSeparated_scores_inj hroll.ne_nil hroll'.ne_nil hshown.1
      rw [hvalues, ih hmore hmore' hterms'.symm hshown.2]

/-- Both are one list for the terms in order: the breakdown holds the values in its groups, and the
rolls in blocks whose lengths the terms tell. -/
theorem breakdown_eq_iff (h : ∀ roll ∈ rolled, roll.term.IsRolled roll.values)
    (h' : ∀ roll ∈ rolled', roll.term.IsRolled roll.values)
    (hterms : rolled.map TermRoll.term = rolled'.map TermRoll.term) :
    TermRoll.breakdown true rolled = TermRoll.breakdown true rolled' ↔
      rolled.flatMap TermRoll.dieRolls = rolled'.flatMap TermRoll.dieRolls := by
  constructor
  · intro hbreakdown
    have hgroups := congrArg (groupsOf none) hbreakdown
    rw [groupsOf_breakdown, groupsOf_breakdown] at hgroups
    rw [eq_of_shown h h' hterms hgroups]
  · intro hrolls
    have hblocks := congrArg (rollsByTerm (rolled.map TermRoll.term)) hrolls
    rw [rollsByTerm_dieRolls h, hterms, rollsByTerm_dieRolls h'] at hblocks
    have hvalues := congrArg (List.map (List.map DieRoll.value)) hblocks
    simp only [List.map_map, Function.comp_def, map_value_dieRolls] at hvalues
    rw [eq_of_values hterms hvalues]

/-! ## Outcomes -/

/-- What the breakdown, the rolls and the canonical text say of each other. -/
structure Outcome.Agrees (outcome : Outcome) (terms : List Term) : Prop where
  /-- Without its groups the breakdown is the canonical text. -/
  text : String.ofList (outsideGroups false outcome.breakdown.toList) =
    Formula.text { terms := terms }
  /-- Every term that is no modifier has a group, which shows the values of its rolls. -/
  groups : groupsOf none outcome.breakdown.toList =
    ((terms.zip (rollsByTerm terms outcome.rolls)).filter fun part => !part.1.die.isConstant).map
      fun part => commaSeparated (part.2.map fun roll => roll.value.spelling)
  /-- Term after term, there are as many rolls as it counts, with its die and its sign. -/
  rolls : outcome.rolls.map (fun roll => (roll.die, roll.sign)) =
    terms.flatMap fun term => List.replicate term.count (term.die, term.sign)

theorem agrees_ofRolled (h : ∀ roll ∈ rolled, roll.term.IsRolled roll.values) :
    (Outcome.ofRolled (rolled.map TermRoll.term) rolled).Agrees (rolled.map TermRoll.term) where
  text := by
    simp only [Outcome.ofRolled, String.toList_ofList, outsideGroups_breakdown]
    rfl
  groups := by
    simp only [Outcome.ofRolled, String.toList_ofList, groupsOf_breakdown,
      rollsByTerm_dieRolls h, List.zip_map', List.filter_map, List.map_map]
    refine List.map_congr_left fun roll _ => ?_
    show roll.shown = commaSeparated (roll.dieRolls.map (Score.spelling ∘ DieRoll.value))
    rw [← List.map_map, map_value_dieRolls, TermRoll.shown]
  rolls := die_sign_of_dieRolls h

/-- Every roll of the terms ends, given enough words; its breakdown without the groups is the
canonical text, and the groups show the rolls, term by term; and of two rolls of the same terms
the breakdowns are equal just if the rolls are. -/
theorem breakdown_agrees_with_rolls (terms : List Term) :
    (evaluate terms).Ends ∧
    (∀ words outcome rest, evaluate terms words = some (outcome, rest) → outcome.Agrees terms) ∧
    ∀ words outcome rest words' outcome' rest',
      evaluate terms words = some (outcome, rest) →
      evaluate terms words' = some (outcome', rest') →
      (outcome.breakdown = outcome'.breakdown ↔ outcome.rolls = outcome'.rolls) := by
  refine ⟨ends_evaluate terms, fun words outcome rest h => ?_,
    fun words outcome rest words' outcome' rest' h h' => ?_⟩
  · obtain ⟨rolled, hrolled, rfl⟩ := evaluate_eq_some.mp h
    obtain ⟨rfl, hvalues⟩ := isRolled_of_rollTerms hrolled
    exact agrees_ofRolled hvalues
  · obtain ⟨rolled, hrolled, rfl⟩ := evaluate_eq_some.mp h
    obtain ⟨rolled', hrolled', rfl⟩ := evaluate_eq_some.mp h'
    obtain ⟨hterms, hvalues⟩ := isRolled_of_rollTerms hrolled
    obtain ⟨hterms', hvalues'⟩ := isRolled_of_rollTerms hrolled'
    simp only [Outcome.ofRolled, String.ofList_inj]
    exact breakdown_eq_iff hvalues hvalues' (hterms.trans hterms'.symm)

/-- Two subtracted dice, a die with a negative face and a modifier. -/
def mixedTerms : List Term :=
  [⟨.minus, 2, .standard ⟨6, by decide, by decide⟩, Nat.zero_lt_two, Term.two_le_maxCount,
      fun h => by cases h⟩,
    ⟨.plus, 1, Die.fudge, Nat.zero_lt_one, Term.one_le_maxCount, fun h => by cases h⟩,
    Term.flat .plus ⟨3, by decide, by decide⟩]

/-- The same values in another order are other rolls, as their breakdowns say. -/
theorem breakdown_agrees_with_rolls_mixed : ∃ outcome outcome',
    evaluate mixedTerms [0, 3000000000, 0] = some (outcome, []) ∧
    evaluate mixedTerms [3000000000, 0, 0] = some (outcome', []) ∧
    outcome.breakdown = "-2d6(1,5) + 1d[-1,0,1](-1) + 3" ∧
    outcome'.breakdown = "-2d6(5,1) + 1d[-1,0,1](-1) + 3" ∧
    outcome.Agrees mixedTerms ∧ outcome'.Agrees mixedTerms ∧ outcome.rolls ≠ outcome'.rolls := by
  have hfirst : (evaluate mixedTerms [0, 3000000000, 0]).map
      (fun result => (result.1.breakdown, result.2)) =
        some ("-2d6(1,5) + 1d[-1,0,1](-1) + 3", []) := by decide +kernel
  have hsecond : (evaluate mixedTerms [3000000000, 0, 0]).map
      (fun result => (result.1.breakdown, result.2)) =
        some ("-2d6(5,1) + 1d[-1,0,1](-1) + 3", []) := by decide +kernel
  obtain ⟨outcome, houtcome, htext⟩ := draw_map_eq_some.mp hfirst
  obtain ⟨outcome', houtcome', htext'⟩ := draw_map_eq_some.mp hsecond
  obtain ⟨-, hagrees, hiff⟩ := breakdown_agrees_with_rolls mixedTerms
  refine ⟨outcome, outcome', houtcome, houtcome', htext, htext', hagrees _ _ _ houtcome,
    hagrees _ _ _ houtcome', fun hrolls => ?_⟩
  have hsame := (hiff _ _ _ _ _ _ houtcome houtcome').mpr hrolls
  rw [htext, htext'] at hsame
  exact absurd hsame (by decide)

end DiceNotation
