import DiceNotation.Proofs.Spelling

/-!
The text of a formula that was read is read back as the same formula, whatever it was read from.

* `legible_of_ofSegments`: a reading makes terms with legible dice only;
* `strict_reads_termsSpelling`: terms with legible dice are read back from their text;
* `text_reads_back`: so a formula that was read is read back from its own.
-/
namespace DiceNotation
set_option autoImplicit false

/-! ## What a reading makes is legible -/

theorem legible_entry (maxCount : Nat) (entry : EntryForm) :
    -2147483648 < (entry.plain (.tolerant maxCount)).1 ∧
      (entry.plain (.tolerant maxCount)).2 ≤ 2147483647 := by
  have hother : ∀ n, (NumberReading.tolerant maxCount).other n ≤ 2147483647 :=
    fun n => Nat.min_le_right n 2147483647
  have hvalue := hother entry.value.value
  refine ⟨?_, ?_⟩
  · unfold EntryForm.plain
    cases entry.sign.getD .plus with
    | plus =>
      simp only [Sign.coefficient]
      omega
    | minus =>
      simp only [Sign.coefficient]
      omega
  · unfold EntryForm.plain
    cases entry.weight with
    | none => exact show 1 ≤ 2147483647 by decide
    | some weight => exact hother weight.value

theorem legible_faces (maxCount : Nat) (faces : FacesForm) :
    (faces.plain (.tolerant maxCount)).Legible := by
  cases faces with
  | count number => trivial
  | fudge => exact show ∀ value ∈ [-1, 0, 1], (-2147483648 : Int) < value by decide
  | list entries =>
    rw [FacesForm.plain]
    split
    · exact List.forall_mem_map.mpr fun entry _ => legible_entry maxCount entry
    · exact List.forall_mem_map.mpr fun entry _ => (legible_entry maxCount entry).1

theorem legible_form (maxCount : Nat) (form : TermForm) :
    (form.plain (.tolerant maxCount)).die.Legible := by
  obtain ⟨start, sign, body⟩ := form
  cases body with
  | flat number => exact Int.natCast_nonneg _
  | dice count faces => cases count <;> exact legible_faces maxCount faces

theorem legible_of_segment {maxCount : Nat} {segment : Segment} {terms : List Term}
    (h : segment.terms maxCount = .ok terms) : ∀ term ∈ terms, term.die.plain.Legible := by
  cases segment with
  | skipped first more =>
    cases h
    exact List.forall_mem_nil _
  | term form =>
    obtain ⟨made, hmade, rfl⟩ := terms_eq_ok h
    have hlegible := legible_form maxCount form
    rw [← TermForm.term_eq_ok_iff.mp hmade] at hlegible
    exact List.forall_mem_singleton.mpr hlegible

theorem legible_of_ofSegments {options : ReadOptions} {segments : List Segment} {formula : Formula}
    (h : Formula.ofSegments options segments = .ok formula) :
    ∀ term ∈ formula.terms, term.die.plain.Legible := by
  induction segments generalizing formula with
  | nil =>
    cases h
    exact List.forall_mem_nil _
  | cons segment more ih =>
    obtain ⟨diagnostics, terms, rest, -, hterms, hmore, rfl⟩ := ofSegments_cons_eq_ok h
    exact List.forall_mem_append.mpr ⟨legible_of_segment hterms, ih hmore⟩

/-! ## Legible terms are read back -/

theorem strict_reads_termsSpelling {terms : List Term}
    (h : ∀ term ∈ terms, term.die.plain.Legible) :
    ∃ formula, Formula.ofText (String.ofList (termsSpelling true terms)) .strictly = .ok formula ∧
      formula.terms = terms ∧ formula.diagnostics = [] ∧ formula.skipped = 0 := by
  obtain ⟨split, hsplit, hadmissible, hplain⟩ := exists_split_of_legible h true 0
  obtain ⟨formula, hok, hread, hdiagnostics, hskipped⟩ := ofSegments_of_split hsplit hadmissible
  refine ⟨formula, ?_, ?_, hdiagnostics, hskipped⟩
  · rw [ofText_eq, String.toList_ofList, lexemes_eq_lexemesFrom]
    exact hok
  · exact (List.map_inj_right fun _ _ => Term.plain_inj).mp (hread.trans hplain)

/-- The text of a formula that was read, in any way and from any text, is read back by the strict
reading as the same terms, with nothing to notice. -/
theorem text_reads_back {text : String} {options : ReadOptions} {formula : Formula}
    (h : Formula.ofText text options = .ok formula) :
    ∃ again, Formula.ofText formula.text .strictly = .ok again ∧ again.terms = formula.terms ∧
      again.diagnostics = [] ∧ again.skipped = 0 ∧ again.text = formula.text := by
  obtain ⟨again, hagain, hterms, hdiagnostics, hskipped⟩ :=
    strict_reads_termsSpelling (legible_of_ofSegments h)
  refine ⟨again, hagain, hterms, hdiagnostics, hskipped, ?_⟩
  rw [Formula.text, Formula.text, hterms]

/-- With a letter skipped, a count and a number replaced and a weight unwritten. -/
theorem text_reads_back_tolerated : ∃ formula again,
    Formula.ofText "2x - 9d[-99999999999, 6:2]" ⟨false, 3⟩ = .ok formula ∧
    formula.text = "2 - 1d[-2147483647:1,6:2]" ∧
    Formula.ofText formula.text .strictly = .ok again ∧ again.terms = formula.terms := by
  have htext : ((Formula.ofText "2x - 9d[-99999999999, 6:2]" ⟨false, 3⟩).map
      Formula.text).toOption = some "2 - 1d[-2147483647:1,6:2]" := by decide +kernel
  cases hread : Formula.ofText "2x - 9d[-99999999999, 6:2]" ⟨false, 3⟩ with
  | error error =>
    rw [hread] at htext
    cases htext
  | ok formula =>
    rw [hread] at htext
    obtain ⟨again, hagain, hterms, -⟩ := text_reads_back hread
    exact ⟨formula, again, rfl, Option.some.inj htext, hagain, hterms⟩

end DiceNotation
