import DiceNotation.Proofs.Coverage

/-!
What the limit on counts has a say in.

A higher limit takes more counts as written, those that `Gained` tells, and changes nothing else:
the same forms are taken, the same dice exist, and of the diagnostics only those of the gained
counts go.

* `count_of_gained` and `count_of_not_gained`: a count under two limits;
* `TermForm.Lifts` and `lifts_of_plain`: a term under two limits;
* `segment_issues_eq_filter`: the issues of a segment under two limits;
* `ofSegments_capped`: limits from `Term.maxCount` on are one limit;
* `limit_changes_counts_alone`: all of it, for two readings of one text.
-/
namespace DiceNotation
set_option autoImplicit false

/-! ## Counts under two limits -/

/-- The higher limit takes the count as written, and for the lower one it is too large. -/
def Gained (low high count : Nat) : Prop := min low 10000 < count ∧ count ≤ min high 10000

instance (low high count : Nat) : Decidable (Gained low high count) :=
  inferInstanceAs (Decidable (_ ∧ _))

section Counts
variable {low high count : Nat}

theorem count_of_gained (h : Gained low high count) :
    (NumberReading.tolerant low).count count = 1 ∧
      (NumberReading.tolerant high).count count = count := by
  obtain ⟨habove, hbelow⟩ := h
  exact ⟨if_neg fun hcount => absurd hcount.2 (Nat.not_le_of_lt habove),
    if_pos ⟨Nat.one_le_of_lt habove, hbelow⟩⟩

theorem count_of_not_gained (hle : low ≤ high) (h : ¬Gained low high count) :
    (NumberReading.tolerant low).count count = (NumberReading.tolerant high).count count := by
  have hsame : (1 ≤ count ∧ count ≤ min low 10000) ↔ (1 ≤ count ∧ count ≤ min high 10000) := by
    unfold Gained at h
    omega
  simp only [NumberReading.tolerant, hsame]

end Counts

/-- The diagnostic of a count that is not taken as written. -/
def Numeral.fallback (number : Numeral) : Diagnostic :=
  ⟨.countFallback, number.start, String.ofList number.text⟩

/-- The written count of a form, if it is gained. -/
def TermForm.gained (low high : Nat) (form : TermForm) : List Numeral :=
  form.body.count?.toList.filter fun number => Gained low high number.value

/-- A diagnostic that a higher limit spares: that of a gained count. -/
def Diagnostic.spared (low high : Nat) (issue : Diagnostic) : Bool :=
  issue.kind = .countFallback ∧ Gained low high (Decimal.value issue.text.toList)

/-! ## Terms under two limits -/

/-- Of a form, one limit makes the term `a` and a higher one the term `b`. -/
structure TermForm.Lifts (low high : Nat) (form : TermForm) (a b : Term) : Prop where
  meantLow : a.plain = form.plain (.tolerant low)
  meantHigh : b.plain = form.plain (.tolerant high)
  sign : a.sign = b.sign
  die : a.die = b.die
  gained : ∀ number ∈ form.gained low high, a.count = 1 ∧ b.count = number.value
  kept : form.gained low high = [] → a.count = b.count

/-- Term by term. -/
inductive Lifted (low high : Nat) : List TermForm → List Term → List Term → Prop
  | nil : Lifted low high [] [] []
  | cons {form : TermForm} {a b : Term} {forms : List TermForm} {as bs : List Term}
      (h : form.Lifts low high a b) (hmore : Lifted low high forms as bs) :
      Lifted low high (form :: forms) (a :: as) (b :: bs)

/-- What a form means but for the count is the same under all limits. -/
theorem plain_limit (low high : Nat) (form : TermForm) :
    (form.plain (.tolerant low)).sign = (form.plain (.tolerant high)).sign ∧
      (form.plain (.tolerant low)).die = (form.plain (.tolerant high)).die := by
  have hfaces (faces : FacesForm) :
      faces.plain (.tolerant low) = faces.plain (.tolerant high) := by
    cases faces with
    | count number => rfl
    | fudge => rfl
    | list entries => rfl
  obtain ⟨start, sign, body⟩ := form
  cases body with
  | flat number => exact ⟨rfl, rfl⟩
  | dice count faces =>
    cases count with
    | none => exact ⟨rfl, hfaces faces⟩
    | some count => exact ⟨rfl, hfaces faces⟩

theorem count_plain (read : NumberReading) (form : TermForm) :
    (form.plain read).count =
      form.body.count?.elim 1 fun number => read.count number.value := by
  obtain ⟨start, sign, body⟩ := form
  cases body with
  | flat number => rfl
  | dice count faces =>
    cases count with
    | none => rfl
    | some count => rfl

section Lifting
variable {low high : Nat}

theorem lifts_of_plain (hle : low ≤ high) {form : TermForm} {a b : Term}
    (ha : a.plain = form.plain (.tolerant low)) (hb : b.plain = form.plain (.tolerant high)) :
    form.Lifts low high a b := by
  obtain ⟨hsign, hdie⟩ := plain_limit low high form
  have hcount : a.count = _ := (congrArg PlainTerm.count ha).trans (count_plain _ form)
  have hcount' : b.count = _ := (congrArg PlainTerm.count hb).trans (count_plain _ form)
  rw [← ha, ← hb] at hsign hdie
  refine ⟨ha, hb, hsign, Die.plain_inj hdie, ?_, ?_⟩
  · intro number hnumber
    obtain ⟨hmem, hgained⟩ := List.mem_filter.mp hnumber
    rw [Option.mem_toList.mp hmem] at hcount hcount'
    obtain ⟨hlow, hhigh⟩ := count_of_gained (of_decide_eq_true hgained)
    exact ⟨hcount.trans hlow, hcount'.trans hhigh⟩
  · intro hnone
    rw [hcount, hcount']
    cases hwritten : form.body.count? with
    | none => rfl
    | some number =>
      rw [TermForm.gained, hwritten, Option.toList_some, List.filter_eq_nil_iff] at hnone
      have hnot := hnone number (List.mem_singleton.mpr rfl)
      rw [decide_eq_true_eq] at hnot
      exact count_of_not_gained hle hnot

theorem lifted_of_plain (hle : low ≤ high) {forms : List TermForm} {as bs : List Term}
    (ha : as.map Term.plain = forms.map (TermForm.plain (.tolerant low)))
    (hb : bs.map Term.plain = forms.map (TermForm.plain (.tolerant high))) :
    Lifted low high forms as bs := by
  induction forms generalizing as bs with
  | nil =>
    rw [List.map_eq_nil_iff.mp ha, List.map_eq_nil_iff.mp hb]
    exact .nil
  | cons form forms ih =>
    obtain ⟨a, as, rfl, hfirst, hmore⟩ := List.map_eq_cons_iff.mp ha
    obtain ⟨b, bs, rfl, hfirst', hmore'⟩ := List.map_eq_cons_iff.mp hb
    exact .cons (lifts_of_plain hle hfirst hfirst') (ih hmore hmore')

/-! ## Issues under two limits -/

theorem spared_fallback (number : Numeral) :
    number.fallback.spared low high = true ↔ Gained low high number.value := by
  rw [Diagnostic.spared, decide_eq_true_eq, Numeral.fallback, String.toList_ofList]
  exact and_iff_right rfl

theorem countIssues_some (maxCount : Nat) (number : Numeral) :
    countIssues maxCount (some number) =
      if 1 ≤ number.value ∧ number.value ≤ min maxCount 10000 then [] else [number.fallback] := by
  simp only [countIssues, Numeral.isCount_iff, Numeral.fallback]

/-- A count that the low limit takes as written is taken so by the high one, and any other is
spared or not taken by either. -/
theorem countIssues_eq_filter (hle : low ≤ high) (count : Option Numeral) :
    countIssues high count = (countIssues low count).filter (fun issue => !issue.spared low high) ∧
      (countIssues low count).filter (Diagnostic.spared low high) =
        (count.toList.filter fun number => Gained low high number.value).map Numeral.fallback := by
  cases count with
  | none => exact ⟨rfl, rfl⟩
  | some number =>
    rw [countIssues_some, countIssues_some, Option.toList_some]
    have hspared : number.fallback.spared low high = true ↔ _ := spared_fallback number
    by_cases hgained : Gained low high number.value
    · have hlow : ¬(1 ≤ number.value ∧ number.value ≤ min low 10000) :=
        fun h => absurd h.2 (Nat.not_le_of_lt hgained.1)
      rw [if_neg hlow, if_pos ⟨Nat.one_le_of_lt hgained.1, hgained.2⟩]
      simp [hspared.mpr hgained, hgained]
    · by_cases hlow : 1 ≤ number.value ∧ number.value ≤ min low 10000
      · have hhigh : 1 ≤ number.value ∧ number.value ≤ min high 10000 := by omega
        rw [if_pos hlow, if_pos hhigh]
        simp [hgained]
      · have hhigh : ¬(1 ≤ number.value ∧ number.value ≤ min high 10000) := by
          unfold Gained at hgained
          omega
        rw [if_neg hlow, if_neg hhigh]
        simp [Bool.eq_false_iff.mpr (mt hspared.mp hgained), hgained]

/-- Only counts are spared. -/
theorem spared_of_ne {issue : Diagnostic} (h : issue.kind ≠ .countFallback) :
    issue.spared low high = false := by
  simp [Diagnostic.spared, h]

theorem spared_of_mem_saturation {number : Numeral} {issue : Diagnostic}
    (h : issue ∈ number.saturation) : issue.spared low high = false := by
  unfold Numeral.saturation at h
  split at h
  · cases h
  · cases List.mem_singleton.mp h
    exact spared_of_ne fun hkind => by cases hkind

theorem segment_issues_eq_filter (hle : low ≤ high) (segment : Segment) :
    segment.issues high = (segment.issues low).filter (fun issue => !issue.spared low high) ∧
      (segment.issues low).filter (Diagnostic.spared low high) =
        segment.forms.flatMap fun form => (form.gained low high).map Numeral.fallback := by
  cases segment with
  | skipped first more =>
    have hskip (text : String) : Diagnostic.spared low high ⟨.skipped, first.start, text⟩ = false :=
      spared_of_ne fun hkind => by cases hkind
    simp [Segment.issues, Segment.forms, hskip]
  | term form =>
    have hnumbers : ∀ issue ∈ form.body.numbers.flatMap Numeral.saturation,
        issue.spared low high = false := by
      intro issue hissue
      obtain ⟨number, -, hmem⟩ := List.mem_flatMap.mp hissue
      exact spared_of_mem_saturation hmem
    obtain ⟨hcount, hspared⟩ := countIssues_eq_filter hle form.body.count?
    simp only [Segment.issues, TermForm.issues_eq, Segment.forms, List.filter_append,
      List.flatMap_singleton, TermForm.gained]
    constructor
    · rw [← hcount]
      refine congrArg (countIssues high _ ++ ·) (List.filter_eq_self.mpr ?_).symm
      intro issue hissue
      rw [hnumbers issue hissue]
      rfl
    · have hnone := List.filter_eq_nil_iff.mpr fun issue hissue =>
        Bool.eq_false_iff.mp (hnumbers issue hissue)
      rw [hspared, hnone, List.append_nil]

theorem issues_eq_filter (hle : low ≤ high) (found : List Segment) :
    found.flatMap (Segment.issues high) =
        (found.flatMap (Segment.issues low)).filter (fun issue => !issue.spared low high) ∧
      (found.flatMap (Segment.issues low)).filter (Diagnostic.spared low high) =
        (found.flatMap Segment.forms).flatMap fun form =>
          (form.gained low high).map Numeral.fallback := by
  rw [List.filter_flatMap, List.filter_flatMap, List.flatMap_assoc]
  constructor
  · exact congrArg (found.flatMap ·) (funext fun segment => (segment_issues_eq_filter hle segment).1)
  · exact congrArg (found.flatMap ·) (funext fun segment => (segment_issues_eq_filter hle segment).2)

end Lifting

/-! ## Readings under two limits -/

theorem meanings_limit (low high : Nat) (forms : List TermForm) :
    (meanings low forms).map (fun _ => ()) = (meanings high forms).map fun _ => () := by
  induction forms with
  | nil => rfl
  | cons form more ih =>
    rw [meanings, meanings, (plain_limit low high form).2]
    split
    · rfl
    · revert ih
      cases meanings low more <;> cases meanings high more <;> exact id

/-- Readings under two limits both succeed, or fail with one error. -/
theorem ofSegments_limit (low high : Nat) (found : List Segment) :
    (Formula.ofSegments ⟨false, low⟩ found).map (fun _ => ()) =
      (Formula.ofSegments ⟨false, high⟩ found).map fun _ => () := by
  have h := meanings_limit low high (found.flatMap Segment.forms)
  rw [← plain_terms_lenient, ← plain_terms_lenient] at h
  revert h
  cases Formula.ofSegments ⟨false, low⟩ found <;>
    cases Formula.ofSegments ⟨false, high⟩ found <;> exact id

section Capped
variable {low high : Nat}

theorem segment_terms_capped (h : min low 10000 = min high 10000) (segment : Segment) :
    segment.terms low = segment.terms high := by
  cases segment with
  | skipped first more => rfl
  | term form =>
    have hterm : form.term low = form.term high := by
      refine TermForm.term_eq_of_plain ?_
      rw [NumberReading.tolerant, NumberReading.tolerant, h]
    rw [Segment.terms, Segment.terms, hterm]

theorem segment_issues_capped (h : min low 10000 = min high 10000) (segment : Segment) :
    segment.issues low = segment.issues high := by
  have hcount (count : Option Numeral) : countIssues low count = countIssues high count := by
    cases count with
    | none => rfl
    | some number => rw [countIssues_some, countIssues_some, h]
  cases segment with
  | skipped first more => rfl
  | term form => rw [Segment.issues, Segment.issues, form.issues_eq, form.issues_eq, hcount]

/-- No limit reaches further than the largest count. -/
theorem ofSegments_capped (h : min low 10000 = min high 10000) (strict : Bool)
    (found : List Segment) :
    Formula.ofSegments ⟨strict, low⟩ found = Formula.ofSegments ⟨strict, high⟩ found := by
  induction found with
  | nil => rfl
  | cons segment more ih =>
    simp only [Formula.ofSegments, segment_issues_capped h, segment_terms_capped h, ih]
    rfl

end Capped

/-- Two formulas that were read from the same forms under a limit and a higher one. -/
structure Formula.Lifts (low high : Nat) (forms : List TermForm) (a b : Formula) : Prop where
  terms : Lifted low high forms a.terms b.terms
  recognized : a.recognized = b.recognized
  skipped : a.skipped = b.skipped
  diagnostics : b.diagnostics = a.diagnostics.filter fun issue => !issue.spared low high
  /-- What is spared is told of the gained counts, one by one. -/
  spared : a.diagnostics.filter (Diagnostic.spared low high) =
    forms.flatMap fun form => (form.gained low high).map Numeral.fallback

theorem formula_lifts {low high : Nat} (hle : low ≤ high) {text : List Char} {a b : Formula}
    (ha : Formula.ofSegments ⟨false, low⟩ (segments (lexemes text)) = .ok a)
    (hb : Formula.ofSegments ⟨false, high⟩ (segments (lexemes text)) = .ok b) :
    a.Lifts low high ((segments (lexemes text)).flatMap Segment.forms) b := by
  have hskipped : a.skipped = b.skipped := by
    rw [skipped_of_ofSegments ha, skipped_of_ofSegments hb, skips_of_ofSegments ha,
      skips_of_ofSegments hb]
  obtain ⟨htotal, -⟩ := (placed_segments text).counts ha
  obtain ⟨htotal', -⟩ := (placed_segments text).counts hb
  obtain ⟨hkept, hspared⟩ := issues_eq_filter hle (segments (lexemes text))
  refine ⟨lifted_of_plain hle (plain_terms_of_ofSegments ha) (plain_terms_of_ofSegments hb),
    by omega, hskipped, ?_, ?_⟩
  · rw [diagnostics_of_ofSegments ha, diagnostics_of_ofSegments hb]
    exact hkept
  · rw [diagnostics_of_ofSegments ha]
    exact hspared

/-- A higher limit changes counts and nothing else: the counts it gains, which were one and are now
as written, and with them the diagnostics that told so. Limits from the largest count on are one
limit, in strict readings too. -/
theorem limit_changes_counts_alone (text : String) {low high : Nat} (hle : low ≤ high) :
    ((∃ error, Formula.ofText text ⟨false, low⟩ = .error error ∧
        Formula.ofText text ⟨false, high⟩ = .error error) ∨
      ∃ forms a b, LongestCut (lexemes text.toList) forms ∧
        Formula.ofText text ⟨false, low⟩ = .ok a ∧ Formula.ofText text ⟨false, high⟩ = .ok b ∧
        a.Lifts low high forms b) ∧
    (10000 ≤ low → ∀ strict,
      Formula.ofText text ⟨strict, low⟩ = Formula.ofText text ⟨strict, high⟩) := by
  simp only [ofText_eq]
  refine ⟨?_, fun hcap strict => ofSegments_capped (by omega) strict _⟩
  have hsame := ofSegments_limit low high (segments (lexemes text.toList))
  cases ha : Formula.ofSegments ⟨false, low⟩ (segments (lexemes text.toList)) with
  | error error =>
    rw [ha] at hsame
    cases hb : Formula.ofSegments ⟨false, high⟩ (segments (lexemes text.toList)) with
    | error other =>
      rw [hb] at hsame
      exact .inl ⟨error, rfl, congrArg Except.error (Except.error.inj hsame).symm⟩
    | ok b =>
      rw [hb] at hsame
      cases hsame
  | ok a =>
    rw [ha] at hsame
    cases hb : Formula.ofSegments ⟨false, high⟩ (segments (lexemes text.toList)) with
    | error other =>
      rw [hb] at hsame
      cases hsame
    | ok b =>
      exact .inr ⟨_, a, b, longestCut_segments _, rfl, rfl, formula_lifts hle ha hb⟩

/-- The higher limit gains the count of twenty, and spares its diagnostic but not that of zero. -/
theorem limit_changes_counts_alone_raised : ∃ forms a b,
    Formula.ofText "3d6 + 20d4 - 0d8 x" ⟨false, 5⟩ = .ok a ∧
    Formula.ofText "3d6 + 20d4 - 0d8 x" ⟨false, 50⟩ = .ok b ∧
    a.terms.map Term.count = [3, 1, 1] ∧ a.diagnostics.map Diagnostic.text = ["20", "0", "x"] ∧
    b.terms.map Term.count = [3, 20, 1] ∧ b.diagnostics.map Diagnostic.text = ["0", "x"] ∧
    a.Lifts 5 50 forms b := by
  have hlow : ((Formula.ofText "3d6 + 20d4 - 0d8 x" ⟨false, 5⟩).map fun formula =>
      (formula.terms.map Term.count, formula.diagnostics.map Diagnostic.text)).toOption =
        some ([3, 1, 1], ["20", "0", "x"]) := by decide +kernel
  have hhigh : ((Formula.ofText "3d6 + 20d4 - 0d8 x" ⟨false, 50⟩).map fun formula =>
      (formula.terms.map Term.count, formula.diagnostics.map Diagnostic.text)).toOption =
        some ([3, 20, 1], ["0", "x"]) := by decide +kernel
  obtain ⟨hread, -⟩ := limit_changes_counts_alone "3d6 + 20d4 - 0d8 x" (show 5 ≤ 50 by decide)
  rcases hread with ⟨error, herror, -⟩ | ⟨forms, a, b, -, ha, hb, hlifts⟩
  · rw [herror] at hlow
    cases hlow
  · rw [ha] at hlow
    rw [hb] at hhigh
    obtain ⟨hcounts, htexts⟩ := Prod.mk.inj (Option.some.inj hlow)
    obtain ⟨hcounts', htexts'⟩ := Prod.mk.inj (Option.some.inj hhigh)
    exact ⟨forms, a, b, ha, hb, hcounts, htexts, hcounts', htexts', hlifts⟩

end DiceNotation
