import DiceNotation.Command.Arguments
import DiceNotation.Draw.Source
import DiceNotation.Proofs.Canonical
import DiceNotation.Proofs.Drawing
import DiceNotation.Proofs.Usability

/-!
Checking a formula on the command line writes it in canonical form.

* `IsCanonical`: the characters that formulas are written with, none of which ends a line;
* `usable_iff_of_strict`: what a strict reading accepts is usable if it has a term, so a strict
  check needs no second look;
* `ArgumentReader.TakesSwitches`: what a reader of arguments is relied on for, and
  `takesSwitches_readArguments`: the reader of the program does so. A line behind the end of the
  options is read as the formula only where the variables of the environment can be read
  (`Environment.Readable`), for with one that cannot there is no request at all;
* `Settings.Passes`: what a check looks for, and `run_check`: how it answers;
* `check_canonicalizes`: a check prints one line just where it should pass, and a strict check of
  that line prints it again;
* `exists_outcomes_of_run`: without a check, the lines are those of as many rolls as asked, each on
  some words.
-/
namespace DiceNotation
set_option autoImplicit false

/-! ## Characters of a canonical text -/

def IsCanonical (c : Char) : Prop :=
  c.isDigit = true ∨ c ∈ ['d', '[', ']', ',', ':', '+', '-', ' ']

theorem forall_mem_commaSeparated {P : Char → Prop} (hcomma : P ',') {parts : List (List Char)}
    (h : ∀ part ∈ parts, ∀ c ∈ part, P c) : ∀ c ∈ commaSeparated parts, P c := by
  induction parts with
  | nil => exact List.forall_mem_nil _
  | cons part more ih =>
    obtain ⟨hpart, hmore⟩ := List.forall_mem_cons.mp h
    cases more with
    | nil => exact hpart
    | cons next others =>
      exact List.forall_mem_append.mpr ⟨hpart, List.forall_mem_cons.mpr ⟨hcomma, ih hmore⟩⟩

theorem isCanonical_mark {c : Char} (h : c ∈ ['d', '[', ']', ',', ':', '+', '-', ' ']) :
    IsCanonical c :=
  .inr h

theorem isCanonical_digits (n : Nat) : ∀ c ∈ Decimal.digits n, IsCanonical c :=
  fun _ hc => .inl (Decimal.isDigit_of_mem_digits hc)

theorem isCanonical_score (a : Score) : ∀ c ∈ a.spelling, IsCanonical c := by
  unfold Score.spelling
  split
  · exact List.forall_mem_cons.mpr ⟨isCanonical_mark (by decide), isCanonical_digits _⟩
  · exact isCanonical_digits _

theorem isCanonical_entry (entry : Score × Nat) :
    ∀ c ∈ Die.entrySpelling entry, IsCanonical c :=
  List.forall_mem_append.mpr ⟨isCanonical_score entry.1,
    List.forall_mem_cons.mpr ⟨isCanonical_mark (by decide), isCanonical_digits entry.2⟩⟩

/-- The letter and the brackets around a list. -/
theorem isCanonical_list {parts : List (List Char)}
    (h : ∀ part ∈ parts, ∀ c ∈ part, IsCanonical c) :
    ∀ c ∈ 'd' :: '[' :: commaSeparated parts ++ [']'], IsCanonical c := by
  have hinside := forall_mem_commaSeparated (isCanonical_mark (by decide)) h
  refine List.forall_mem_append.mpr ⟨?_, List.forall_mem_singleton.mpr (isCanonical_mark (by decide))⟩
  exact List.forall_mem_cons.mpr ⟨isCanonical_mark (by decide),
    List.forall_mem_cons.mpr ⟨isCanonical_mark (by decide), hinside⟩⟩

theorem isCanonical_die (die : Die) : ∀ c ∈ die.spelling, IsCanonical c := by
  cases die with
  | standard faces =>
    exact List.forall_mem_cons.mpr ⟨isCanonical_mark (by decide), isCanonical_digits _⟩
  | custom list =>
    exact isCanonical_list (List.forall_mem_map.mpr fun value _ => isCanonical_score value)
  | weighted table =>
    exact isCanonical_list (List.forall_mem_map.mpr fun entry _ => isCanonical_entry entry)
  | constant value => exact isCanonical_score value

theorem isCanonical_term (term : Term) : ∀ c ∈ term.spelling, IsCanonical c := by
  unfold Term.spelling
  split
  · exact isCanonical_score _
  · exact List.forall_mem_append.mpr ⟨isCanonical_digits _, isCanonical_die _⟩

theorem isCanonical_operator (leading : Bool) (sign : Sign) :
    ∀ c ∈ sign.operator leading, IsCanonical c := by
  have hspace : IsCanonical ' ' := isCanonical_mark (by decide)
  have hplus : IsCanonical '+' := isCanonical_mark (by decide)
  have hminus : IsCanonical '-' := isCanonical_mark (by decide)
  cases sign <;> cases leading <;> simp [Sign.operator, hspace, hplus, hminus]

theorem isCanonical_terms (leading : Bool) (terms : List Term) :
    ∀ c ∈ termsSpelling leading terms, IsCanonical c := by
  induction terms generalizing leading with
  | nil => exact List.forall_mem_nil _
  | cons term more ih =>
    refine List.forall_mem_append.mpr ⟨?_, ih false⟩
    exact List.forall_mem_append.mpr ⟨isCanonical_operator leading _, isCanonical_term term⟩

/-- A canonical text is one line. -/
theorem newline_not_mem_text (formula : Formula) : '\n' ∉ formula.text.toList := by
  rw [Formula.text, String.toList_ofList]
  intro hmem
  rcases isCanonical_terms true formula.terms _ hmem with hdigit | hmark
  · exact absurd hdigit (by decide)
  · exact absurd hmark (by decide)

/-! ## Strict readings and usable texts -/

section Reading
variable {text : String} {formula : Formula}

/-- Of what a strict reading accepts nothing is skipped, so it is usable if it has a term. -/
theorem usable_iff_of_strict (hlength : text.length < 18446744073709551616)
    (h : Formula.ofText text .strictly = .ok formula) :
    isUsable text = true ↔ formula.terms ≠ [] := by
  obtain ⟨hread, hnil⟩ := (ofText_strictly_iff text formula).mp h
  obtain ⟨-, hle, hpos⟩ := counts_of_ofText hread
  have hskipped : formula.skipped = 0 := by
    rw [skipped_of_ofSegments hread, Formula.skips, hnil]
    rfl
  rw [isUsable_iff]
  constructor
  · rintro ⟨other, hother, hne, -⟩
    cases hread.symm.trans hother
    exact hne
  · intro hne
    exact ⟨formula, hread, hne,
      half_le_coverage_of_unskipped (hpos hne) (by omega) hskipped⟩

end Reading

namespace Command

/-! ## Switches that arguments set -/

/-- The variables that are set can be read. -/
structure Environment.Readable (environment : Environment) : Prop where
  mode : ∀ text, environment.mode = some text → (mode? text).isSome
  seed : ∀ text, environment.seed = some text → (seed? text).isSome

/-- A switch as an argument. -/
def SwitchOption.flag : SwitchOption → String
  | .strict => "--strict"
  | .json => "--json"
  | .check => "--check"

def Given.isSet (given : Given) : SwitchOption → Bool
  | .strict => given.strict
  | .json => given.json
  | .check => given.check

def Settings.isSet (settings : Settings) : SwitchOption → Bool
  | .strict => settings.strict
  | .json => settings.json
  | .check => settings.check

/-- Switches are set if they are given once, and a line behind the end of the options is the
formula, whatever it looks like, unless a variable of the environment cannot be read. -/
def ArgumentReader.TakesSwitches (read : ArgumentReader) : Prop :=
  ∀ (switches : List SwitchOption) (line : String) (environment : Environment), switches.Nodup →
    environment.Readable → ∃ settings,
      read (switches.map SwitchOption.flag ++ ["--", line]) environment = some (.run settings) ∧
      settings.formula = line ∧ ∀ switch, settings.isSet switch = true ↔ switch ∈ switches

theorem exists_setSwitch {given : Given} {switch : SwitchOption} (h : given.isSet switch = false) :
    ∃ given', given.setSwitch switch = some given' ∧ given'.formula = given.formula ∧
      ∀ other, given'.isSet other = true ↔ other = switch ∨ given.isSet other = true := by
  obtain ⟨formula, mode, seed, repetitions, strict, json, check⟩ := given
  cases switch <;> cases h <;> refine ⟨_, rfl, rfl, fun other => ?_⟩ <;> cases other <;>
    simp [Given.isSet]

/-- Each switch in front leaves one fewer to set. -/
theorem exists_request_switches {environment : Environment} {switches : List SwitchOption}
    (line : String) {given : Given} (hnodup : switches.Nodup)
    (hunset : ∀ switch ∈ switches, given.isSet switch = false) (hformula : given.formula = none) :
    ∃ given' : Given, request environment given (switches.map SwitchOption.flag ++ ["--", line]) =
        given'.request environment ∧ given'.formula = some line ∧
      ∀ switch, given'.isSet switch = true ↔ switch ∈ switches ∨ given.isSet switch = true := by
  induction switches generalizing given with
  | nil =>
    obtain ⟨formula, mode, seed, repetitions, strict, json, check⟩ := given
    cases hformula
    refine ⟨_, rfl, rfl, fun switch => ?_⟩
    rw [List.mem_nil_iff, false_or]
    cases switch <;> rfl
  | cons first others ih =>
    obtain ⟨hfirst, hothers⟩ := List.nodup_cons.mp hnodup
    obtain ⟨hunsetFirst, hunsetOthers⟩ := List.forall_mem_cons.mp hunset
    obtain ⟨given', hset, hformula', hisSet⟩ := exists_setSwitch hunsetFirst
    have hunset' : ∀ switch ∈ others, given'.isSet switch = false := by
      intro switch hmem
      rw [Bool.eq_false_iff, ne_eq, hisSet, not_or, hunsetOthers switch hmem]
      exact ⟨fun heq => hfirst (heq ▸ hmem), Bool.false_ne_true⟩
    obtain ⟨given'', hrequest, hformula'', hisSet'⟩ :=
      ih hothers hunset' (hformula'.trans hformula)
    have hflag : Argument.ofText first.flag = .switch first := by
      cases first <;> rfl
    refine ⟨given'', ?_, hformula'', fun switch => ?_⟩
    · rw [List.map_cons, List.cons_append, request, hflag]
      show (given.setSwitch first).bind _ = _
      rw [hset]
      exact hrequest
    · rw [hisSet', hisSet, List.mem_cons]
      tauto

/-- The mode may as well be given. -/
theorem exists_mode {environment : Environment} (h : environment.Readable) (given : Given) :
    ∃ mode, given.settings environment =
      { given with mode := some mode }.settings environment := by
  obtain ⟨formula, mode, seed, repetitions, strict, json, check⟩ := given
  cases mode with
  | some mode => exact ⟨mode, rfl⟩
  | none =>
    cases hset : environment.mode with
    | none => exact ⟨.normal, by simp only [Given.settings, hset]⟩
    | some text =>
      obtain ⟨mode, hmode⟩ := Option.isSome_iff_exists.mp (h.mode text hset)
      exact ⟨mode, by simp only [Given.settings, hset, hmode]⟩

theorem exists_settings {environment : Environment} (h : environment.Readable) {given : Given}
    {text : String} (hformula : given.formula = some text) :
    ∃ settings, given.settings environment = some settings ∧ settings.formula = text ∧
      ∀ switch, settings.isSet switch = given.isSet switch := by
  obtain ⟨mode, hmode⟩ := exists_mode h given
  rw [hmode]
  obtain ⟨formula, _, seed, repetitions, strict, json, check⟩ := given
  cases hformula
  have hsettings : ∃ seed', Given.settings ⟨some text, some mode, seed, repetitions, strict, json,
      check⟩ environment =
        some ⟨text, mode, seed', repetitions.getD 1, strict, json, check⟩ := by
    cases seed with
    | some seed => exact ⟨some seed, rfl⟩
    | none =>
      cases hset : environment.seed with
      | none => exact ⟨none, by simp [Given.settings, hset]⟩
      | some word =>
        obtain ⟨seed, hseed⟩ := Option.isSome_iff_exists.mp (h.seed word hset)
        exact ⟨some seed, by simp [Given.settings, hset, hseed]⟩
  obtain ⟨seed', hsettings⟩ := hsettings
  exact ⟨_, hsettings, rfl, fun switch => by cases switch <;> rfl⟩

theorem takesSwitches_readArguments : readArguments.TakesSwitches := by
  intro switches line environment hnodup hreadable
  have hunset : ∀ switch, Given.isSet {} switch = false := fun switch => by cases switch <;> rfl
  obtain ⟨given, hrequest, hformula, hisSet⟩ :=
    exists_request_switches line hnodup (fun switch _ => hunset switch) rfl
  obtain ⟨settings, hsettings, hline, hsame⟩ := exists_settings hreadable hformula
  refine ⟨settings, ?_, hline, fun switch => ?_⟩
  · rw [readArguments, hrequest, Given.request, hsettings]
    rfl
  · rw [hsame, hisSet, hunset]
    simp

/-! ## Checks -/

/-- What a check looks for: with `--strict` a term that is read strictly, else a usable text. -/
def Settings.Passes (settings : Settings) : Prop :=
  if settings.strict then
    ∃ formula, Formula.ofText settings.formula .strictly = .ok formula ∧ formula.terms ≠ []
  else
    isUsable settings.formula = true

section Checks
variable {settings : Settings}

theorem run_check (hcheck : settings.check = true) (generator : Generator) :
    (∃ formula, Formula.ofText settings.formula settings.options = .ok formula ∧
      isUsable settings.formula = true ∧ settings.run generator = .done (formula.text ++ "\n")) ∨
    (¬(∃ formula, Formula.ofText settings.formula settings.options = .ok formula ∧
      isUsable settings.formula = true) ∧ ∃ error, settings.run generator = .failed "" error) := by
  unfold Settings.run
  cases hread : Formula.ofText settings.formula settings.options with
  | error error =>
    refine .inr ⟨?_, _, rfl⟩
    rintro ⟨formula, hformula, -⟩
    cases hformula
  | ok formula =>
    by_cases husable : isUsable settings.formula = true
    · exact .inl ⟨formula, rfl, husable, by simp only [hcheck, husable, if_true]⟩
    · refine .inr ⟨fun h => ?_, _, by simp only [hcheck, husable, if_true]; rfl⟩
      obtain ⟨_, -, h⟩ := h
      exact husable h

/-- Either way the text is read as asked and then looked at leniently. -/
theorem passes_iff (hlength : settings.formula.length < 18446744073709551616) :
    settings.Passes ↔ ∃ formula, Formula.ofText settings.formula settings.options = .ok formula ∧
      isUsable settings.formula = true := by
  obtain ⟨text, mode, seed, repetitions, strict, json, check⟩ := settings
  cases strict with
  | true =>
    exact exists_congr fun formula => and_congr_right fun hread =>
      (usable_iff_of_strict hlength hread).symm
  | false =>
    show isUsable text = true ↔ ∃ formula, Formula.ofText text = .ok formula ∧
      isUsable text = true
    constructor
    · intro husable
      obtain ⟨formula, hread, -⟩ := (isUsable_iff text).mp husable
      exact ⟨formula, hread, husable⟩
    · rintro ⟨_, -, husable⟩
      exact husable

theorem terms_ne_nil_of_usable {formula : Formula}
    (hlength : settings.formula.length < 18446744073709551616)
    (hread : Formula.ofText settings.formula settings.options = .ok formula)
    (husable : isUsable settings.formula = true) : formula.terms ≠ [] := by
  obtain ⟨text, mode, seed, repetitions, strict, json, check⟩ := settings
  cases strict with
  | true => exact (usable_iff_of_strict hlength hread).mp husable
  | false =>
    obtain ⟨other, hother, hne, -⟩ := (isUsable_iff text).mp husable
    cases hother.symm.trans hread
    exact hne

/-- A canonical text with a term passes a strict check, which writes it as it is. -/
theorem run_strict_check_of_text {text : String} {options : ReadOptions} {formula : Formula}
    (hread : Formula.ofText text options = .ok formula) (hne : formula.terms ≠ [])
    (hlength : formula.text.length < 18446744073709551616) (hcheck : settings.check = true)
    (hstrict : settings.strict = true) (hformula : settings.formula = formula.text)
    (generator : Generator) : settings.run generator = .done (formula.text ++ "\n") := by
  obtain ⟨again, hagain, hterms, -⟩ := strict_reads_termsSpelling (legible_of_ofSegments hread)
  have husable := (usable_iff_of_strict hlength hagain).mpr (hterms ▸ hne)
  have hread' : Formula.ofText settings.formula settings.options = .ok again := by
    rw [hformula, Settings.options, hstrict]
    exact hagain
  rcases run_check hcheck generator with ⟨found, hfound, -, hrun⟩ | ⟨hfails, -⟩
  · cases hfound.symm.trans hread'
    rw [hrun, Formula.text, Formula.text, hterms]
  · exact absurd ⟨again, hread', hformula ▸ husable⟩ hfails

end Checks

/-- A strict check of a line, asked for by any arguments in any environment, gives an answer. -/
def StrictlyChecked (read : ArgumentReader) (line : String) (given : Answer) : Prop :=
  ∀ arguments environment settings generator, read arguments environment = some (.run settings) →
    settings.check = true → settings.strict = true → settings.formula = line →
      answer read generator arguments environment = given

theorem answer_of_read {read : ArgumentReader} {arguments : List String} {environment : Environment}
    {settings : Settings} (h : read arguments environment = some (.run settings))
    (generator : Generator) :
    answer read generator arguments environment = settings.run generator := by
  simp only [answer, h]

theorem answer_strict_check {read : ArgumentReader} (hread : read.TakesSwitches) {line : String}
    {given : Answer} (hchecked : StrictlyChecked read line given) {environment : Environment}
    (hreadable : environment.Readable) (generator : Generator) :
    answer read generator ["--check", "--strict", "--", line] environment = given := by
  obtain ⟨settings, hrequest, hline, hisSet⟩ :=
    hread [.check, .strict] line environment (by decide) hreadable
  exact hchecked _ _ _ generator hrequest ((hisSet .check).mpr (by decide))
    ((hisSet .strict).mpr (by decide)) hline

/-- A check succeeds just where it should pass, and then prints one line: the canonical text of the
formula that was read. Otherwise nothing is printed before the error. A strict check of that line,
asked for by any arguments that are read, prints the same line. Arguments are sure to be read where
the line stands behind the end of the options and the mode and the seed of the environment, if set,
can be read (`Environment.Readable`); with one that cannot, a reader may refuse them. The texts
are no longer than a word can count, as in any memory. -/
theorem check_canonicalizes {read : ArgumentReader} (hread : read.TakesSwitches)
    {arguments : List String} {environment : Environment} {settings : Settings}
    (haccepts : read arguments environment = some (.run settings))
    (hcheck : settings.check = true)
    (hlength : settings.formula.length < 18446744073709551616) (generator : Generator) :
    ((∃ output, answer read generator arguments environment = .done output) ↔ settings.Passes) ∧
    (¬settings.Passes → ∃ error, answer read generator arguments environment = .failed "" error) ∧
    ∀ output, answer read generator arguments environment = .done output →
      ∃ formula, Formula.ofText settings.formula settings.options = .ok formula ∧
        output = formula.text ++ "\n" ∧ '\n' ∉ formula.text.toList ∧
        (formula.text.length < 18446744073709551616 →
          StrictlyChecked read formula.text (.done output) ∧
          ∀ environment generator, environment.Readable →
            answer read generator ["--check", "--strict", "--", formula.text] environment =
              .done output) := by
  rw [answer_of_read haccepts]
  rcases run_check hcheck generator with ⟨formula, hreading, husable, hrun⟩ | ⟨hfails, error, hrun⟩
  · have hpasses := (passes_iff hlength).mpr ⟨formula, hreading, husable⟩
    refine ⟨⟨fun _ => hpasses, fun _ => ⟨_, hrun⟩⟩, fun hnot => absurd hpasses hnot, ?_⟩
    intro output houtput
    cases hrun.symm.trans houtput
    refine ⟨formula, hreading, rfl, newline_not_mem_text formula, fun hline => ?_⟩
    have hne := terms_ne_nil_of_usable hlength hreading husable
    have hchecked : StrictlyChecked read formula.text (.done (formula.text ++ "\n")) := by
      intro again environment' settings' generator' haccepts' hcheck' hstrict' hformula'
      rw [answer_of_read haccepts']
      exact run_strict_check_of_text hreading hne hline hcheck' hstrict' hformula' generator'
    exact ⟨hchecked, fun environment' generator' hreadable =>
      answer_strict_check hread hchecked hreadable generator'⟩
  · have hnot : ¬settings.Passes := fun hpasses => hfails ((passes_iff hlength).mp hpasses)
    refine ⟨⟨?_, fun hpasses => absurd hpasses hnot⟩, fun _ => ⟨error, hrun⟩, ?_⟩
    · rintro ⟨output, houtput⟩
      cases hrun.symm.trans houtput
    · intro output houtput
      cases hrun.symm.trans houtput

/-- Three letters are skipped, which a strict check does not allow. -/
theorem check_canonicalizes_tolerated :
    answer readArguments (Source.generator 0) ["--check", "-m", "advantage", "2D6 xyz -3"] {} =
      .done "2d6 - 3\n" ∧
    answer readArguments (Source.generator 1) ["--check", "--strict", "--", "2d6 - 3"] {} =
      .done "2d6 - 3\n" ∧
    ∃ error, answer readArguments (Source.generator 0) ["--strict", "2D6 xyz -3", "--check"] {} =
      .failed "" error := by
  have hlenient : readArguments ["--check", "-m", "advantage", "2D6 xyz -3"] {} =
      some (.run { formula := "2D6 xyz -3", mode := .advantage, check := true }) := rfl
  have hstrict : readArguments ["--strict", "2D6 xyz -3", "--check"] {} =
      some (.run { formula := "2D6 xyz -3", strict := true, check := true }) := rfl
  have hreadable : Environment.Readable {} :=
    ⟨fun _ h => absurd h (by simp), fun _ h => absurd h (by simp)⟩
  have htext : ((Formula.ofText "2D6 xyz -3").map Formula.text).toOption = some "2d6 - 3" := by
    decide +kernel
  have hrefused : ((Formula.ofText "2D6 xyz -3" .strictly).map Formula.text).toOption = none := by
    decide +kernel
  have husable : isUsable "2D6 xyz -3" = true := by decide +kernel
  obtain ⟨formula, hread, hshown⟩ := exists_ok_of_shown htext
  obtain ⟨hdone, -, hprinted⟩ :=
    check_canonicalizes takesSwitches_readArguments hlenient rfl (by decide) (Source.generator 0)
  obtain ⟨output, houtput⟩ := hdone.mpr husable
  obtain ⟨found, hfound, hline, -, hagain⟩ := hprinted output houtput
  cases hfound.symm.trans hread
  rw [hshown] at hline hagain
  obtain ⟨-, hagain⟩ := hagain (by decide)
  subst hline
  refine ⟨houtput, hagain {} (Source.generator 1) hreadable, ?_⟩
  obtain ⟨-, hfailed, -⟩ :=
    check_canonicalizes takesSwitches_readArguments hstrict rfl (by decide) (Source.generator 0)
  refine hfailed ?_
  rintro ⟨refused, hrefusedRead, -⟩
  rw [show Formula.ofText "2D6 xyz -3" .strictly = .ok refused from hrefusedRead] at hrefused
  cases hrefused

/-! ## Rolls -/

/-- Whatever the random source is, a run without a check prints rolls of the formula, as many as
were asked for. -/
theorem exists_outcomes_of_run {settings : Settings} {generator : Generator} {output : String}
    (hcheck : settings.check = false) (h : settings.run generator = .done output) :
    ∃ (formula : Formula) (outcomes : List ModeOutcome),
      Formula.ofText settings.formula settings.options = .ok formula ∧
      outcomes.length = settings.repetitions ∧
      (∀ outcome ∈ outcomes, ∃ words rest,
        formula.rollWithMode settings.mode words = some (outcome, rest)) ∧
      output = String.join (outcomes.map settings.line) := by
  unfold Settings.run at h
  rw [hcheck] at h
  cases hread : Formula.ofText settings.formula settings.options with
  | error error =>
    rw [hread] at h
    cases h
  | ok formula =>
    rw [hread] at h
    cases hrun : generator.run settings.seed (settings.rollAll formula) with
    | none => simp [hrun] at h
    | some outcomes =>
      obtain ⟨words, rest, hdraw⟩ := generator.exists_words _ _ _ hrun
      obtain ⟨hlength, hrolls⟩ := Draw.repeated_eq_some hdraw
      simp only [hrun, Bool.false_eq_true, if_false, Answer.done.injEq] at h
      exact ⟨formula, outcomes, rfl, hlength, hrolls, h.symm⟩

end Command

end DiceNotation
