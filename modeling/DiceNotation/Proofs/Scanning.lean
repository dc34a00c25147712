import DiceNotation.Proofs.Composing
import DiceNotation.Proofs.Coverage

/-!
Reading a text by scanning it.

* `Scanner`, `step` and `scan`: the way through all lexemes, one term or one skipped lexeme a step.
  Skipped lexemes are pending until a term or the end comes, and then they are one issue;
* `Scanner.held` and `Scanner.Sound`: the lexemes that are pending, which end where the scan stands;
* `finds_step_pass` and `reports_step_take`: what one step does;
* `gives_scanFrom`: what all steps from one state on do, by induction on the lexemes that are left;
* `scan_stays_in_range`: a scan asks for nothing that is not there, every step gets on, and what
  comes out is the formula or the error of the reading.
-/
namespace DiceNotation
set_option autoImplicit false

/-! ## The way through a text -/

/-- Where a scan stands, and what it has so far. -/
structure Scanner where
  /-- The number of the lexeme that comes next. -/
  position : Nat := 0
  /-- The numbers of the first and the last lexeme of a skipped stretch just before. -/
  pending : Option (Nat × Nat) := none
  terms : List Term := []
  recognized : Nat := 0
  skipped : Nat := 0

namespace Scanner

/-- Gets over a lexeme that starts no term. -/
def pass (state : Scanner) (lexeme : Lexeme) : Scanner where
  position := state.position + 1
  pending := some ((state.pending.map Prod.fst).getD state.position, state.position)
  terms := state.terms
  recognized := state.recognized
  skipped := state.skipped + lexeme.text.length

/-- Gets behind a term. -/
def take (state : Scanner) (next width : Nat) (term : Term) : Scanner where
  position := next
  pending := none
  terms := state.terms ++ [term]
  recognized := state.recognized + width
  skipped := state.skipped

end Scanner

section Scanning
variable (options : ReadOptions) (text : List Char)

/-- Reports a skipped stretch. -/
def reportPending : Option (Nat × Nat) → Scan Unit
  | none => return ()
  | some (first, last) => do
    let head ← lexemeAt (lexemes text) first
    let tail ← lexemeAt (lexemes text) last
    let quoted ← quote text head.val.start tail.val.stop
    Scan.note options ⟨.skipped, head.val.start, quoted⟩

def step (state : Scanner) : Scan Scanner := do
  match ← matchTerm (lexemes text) state.position with
  | some (term, next) => do
    reportPending options text state.pending
    let taken ← .look (.lexemes state.position next) (slice? (lexemes text) state.position next)
    let made ← termOf options term
    return state.take next (textWidth taken) made
  | none => do
    let lexeme ← lexemeAt (lexemes text) state.position
    return state.pass lexeme.val

theorem lt_of_step {state next : Scanner} (h : (step options text state).result = .ok next) :
    state.position < next.position := by
  obtain ⟨matched, hmatched, h⟩ := Scan.bind_result_eq_ok h
  cases matched with
  | none =>
    obtain ⟨lexeme, -, h⟩ := Scan.bind_result_eq_ok h
    cases h
    exact Nat.lt_succ_self _
  | some found =>
    obtain ⟨-, -, h⟩ := Scan.bind_result_eq_ok h
    obtain ⟨taken, -, h⟩ := Scan.bind_result_eq_ok h
    obtain ⟨made, -, h⟩ := Scan.bind_result_eq_ok h
    cases h
    exact lt_of_matchTerm _ hmatched

/-- The formula of a scan from a state on, but for its diagnostics. -/
def scanFrom (state : Scanner) : Scan Formula :=
  if _hposition : state.position < (lexemes text).length then
    (step options text state).andThen fun next _hstep => scanFrom next
  else do
    reportPending options text state.pending
    return { terms := state.terms, recognized := state.recognized, skipped := state.skipped }
termination_by (lexemes text).length - state.position
decreasing_by
  have hlt := lt_of_step options text _hstep
  omega

def scan : Scan Formula :=
  (scanFrom options text {}).collect fun diagnostics formula => { formula with diagnostics }

end Scanning

/-! ## Skipped stretches -/

namespace Scanner

/-- The lexemes of the skipped stretch just before. -/
def held (found : List Lexeme) (state : Scanner) : List Lexeme :=
  match state.pending with
  | none => []
  | some (first, last) => (found.take (last + 1)).drop first

/-- The stretch ends where the scan stands. -/
structure Sound (found : List Lexeme) (state : Scanner) : Prop where
  position : state.position ≤ found.length
  pending : ∀ first last, state.pending = some (first, last) →
    first ≤ last ∧ last + 1 = state.position

section Pass
variable {found : List Lexeme} {state : Scanner} {lexeme : Lexeme}

theorem Sound.pass (h : state.Sound found) (hlexeme : found[state.position]? = some lexeme) :
    (state.pass lexeme).Sound found := by
  obtain ⟨hlt, -⟩ := List.getElem?_eq_some_iff.mp hlexeme
  refine ⟨hlt, fun first last hpending => ?_⟩
  cases hpending
  refine ⟨?_, rfl⟩
  cases hstretch : state.pending with
  | none => exact Nat.le_refl _
  | some stretch =>
    have hends := h.pending stretch.1 stretch.2 hstretch
    show stretch.1 ≤ state.position
    omega

theorem sound_take {next : Nat} (hnext : next ≤ found.length) (width : Nat) (term : Term) :
    (state.take next width term).Sound found :=
  ⟨hnext, fun _ _ hpending => by cases hpending⟩

theorem held_pass (h : state.Sound found) (hlexeme : found[state.position]? = some lexeme) :
    (state.pass lexeme).held found = state.held found ++ [lexeme] := by
  have htake := take_succ_of_getElem? hlexeme
  have hlength : (found.take state.position).length = state.position :=
    List.length_take_of_le h.position
  cases hpending : state.pending with
  | none =>
    simp only [held, pass, hpending, Option.map_none, Option.getD_none, List.nil_append]
    rw [htake, List.drop_left' hlength]
  | some stretch =>
    obtain ⟨hle, hlast⟩ := h.pending stretch.1 stretch.2 hpending
    simp only [held, pass, hpending, Option.map_some, Option.getD_some]
    rw [htake, List.drop_append_of_le_length (by omega), ← hlast]

end Pass

end Scanner

/-- The segment of a skipped stretch, if anything was skipped. -/
def Segment.stretch : List Lexeme → List Segment
  | [] => []
  | first :: more => [.skipped first more]

theorem foldr_skip (held : List Lexeme) {found : List Segment}
    (h : ∀ segment ∈ found.head?, segment.forms ≠ []) :
    held.foldr Segment.skip found = Segment.stretch held ++ found := by
  induction held with
  | nil => rfl
  | cons lexeme more ih =>
    rw [List.foldr_cons, ih]
    cases more with
    | cons next others => rfl
    | nil =>
      cases found with
      | nil => rfl
      | cons segment others =>
        cases segment with
        | term form => rfl
        | skipped first rest => exact absurd rfl (h _ rfl)

section Pending
variable (options : ReadOptions) {text : List Char} {state : Scanner}

theorem reports_reportPending (h : state.Sound (lexemes text)) :
    (reportPending options text state.pending).Reports text (lexemes text) options
      ((Segment.stretch (state.held (lexemes text))).flatMap (Segment.issues options.maxCount))
      (.ok ()) := by
  unfold Scanner.held
  cases hpending : state.pending with
  | none => exact (Scan.finds_pure ()).reports
  | some stretch =>
    obtain ⟨first, last⟩ := stretch
    obtain ⟨hle, hlast⟩ := h.pending first last hpending
    have hposition := h.position
    have hhead := List.getElem?_eq_getElem (show first < (lexemes text).length by omega)
    have htail := List.getElem?_eq_getElem (show last < (lexemes text).length by omega)
    have hcons : ((lexemes text).take (last + 1)).drop first = (lexemes text)[first] ::
        ((lexemes text).take (last + 1)).drop (first + 1) := by
      refine drop_eq_cons ?_
      rw [List.getElem?_take_of_lt (by omega), hhead]
    obtain ⟨hmem, hfirst⟩ := finds_lexemeAt text hhead
    obtain ⟨hmem', hsecond⟩ := finds_lexemeAt text htail
    have hquote := finds_quote hhead htail hle
    dsimp only
    rw [hcons] at hquote ⊢
    exact hfirst.bind (hsecond.bind (hquote.bind (Scan.reports_note _)))

end Pending

/-! ## Steps -/

section Steps
variable (options : ReadOptions) {text : List Char} {state : Scanner}

theorem finds_step_pass {lexeme : Lexeme} (hlexeme : (lexemes text)[state.position]? = some lexeme)
    (htake : takeTerm ((lexemes text).drop state.position) = none) :
    (step options text state).Finds text (lexemes text) (state.pass lexeme) := by
  obtain ⟨matched, hfinds, hfollows⟩ := matches_matchTerm text (lexemes text) state.position
  rw [htake] at hfollows
  cases hfollows
  obtain ⟨hmem, hlook⟩ := finds_lexemeAt text hlexeme
  exact hfinds.bind (hlook.bind (Scan.finds_pure _))

theorem width_eq_of_takeTerm {form : TermForm} {position next : Nat} (hlt : position < next)
    (hnext : next ≤ (lexemes text).length)
    (htake : takeTerm ((lexemes text).drop position) = some (form, (lexemes text).drop next)) :
    textWidth (((lexemes text).take next).drop position) = form.width := by
  obtain ⟨taken, htaken, hspelled⟩ := takeTerm_spelled htake
  have hsplit : (lexemes text).drop position =
      ((lexemes text).take next).drop position ++ (lexemes text).drop next := by
    rw [← List.drop_append_of_le_length (by rw [List.length_take]; omega), List.take_append_drop]
  rw [hsplit] at htaken
  have hrow := List.append_cancel_right htaken
  rw [hrow]
  refine (hspelled.width_eq fun lexeme hlexeme => ?_).symm
  rw [← hrow] at hlexeme
  exact (tokenizes_lexemes text).words lexeme
    (List.mem_of_mem_take (List.mem_of_mem_drop hlexeme))

/-- A step at a term reports the stretch before it and then what is wrong with the term. -/
theorem reports_step_take (hsound : state.Sound (lexemes text)) {form : TermForm}
    {rest : List Lexeme}
    (htake : takeTerm ((lexemes text).drop state.position) = some (form, rest)) :
    ∃ next, rest = (lexemes text).drop next ∧ state.position < next ∧
      next ≤ (lexemes text).length ∧
      (step options text state).Reports text (lexemes text) options
        ((Segment.stretch (state.held (lexemes text))).flatMap (Segment.issues options.maxCount) ++
          form.issues options.maxCount)
        ((form.made options.maxCount).map (state.take next form.width)) := by
  obtain ⟨matched, hfinds, hfollows⟩ := matches_matchTerm text (lexemes text) state.position
  rw [htake] at hfollows
  cases hfollows with
  | @some term next hnext =>
    have hlt := lt_of_matchTerm (lexemes text) hfinds.result_eq
    refine ⟨next, rfl, hlt, hnext, ?_⟩
    refine hfinds.bind ((reports_reportPending options hsound).bind ?_)
    rw [slice?_eq_some (Nat.le_of_lt hlt) hnext, ← width_eq_of_takeTerm hlt hnext htake]
    refine Scan.Finds.bind (Scan.finds_look (show Access.InRange text _ (.lexemes _ _) from
      ⟨hlt, hnext⟩) _) ?_
    exact (reports_termOf options term).map _

end Steps

/-! ## The whole way -/

section Ways
variable {options : ReadOptions}

theorem ofSegments_term (form : TermForm) (more : List Segment) :
    Formula.ofSegments options (.term form :: more) =
      match options.reading (form.issues options.maxCount) (form.made options.maxCount) with
      | .error error => .error error
      | .ok (noted, term) => (Formula.ofSegments options more).map fun rest => {
          terms := term :: rest.terms
          diagnostics := noted ++ rest.diagnostics
          recognized := form.width + rest.recognized
          skipped := rest.skipped } := by
  unfold ReadOptions.reading TermForm.made
  rw [form.checked_eq]
  cases hissues : options.report (form.issues options.maxCount) with
  | error error => exact ofSegments_cons_error hissues
  | ok kept =>
    cases hterm : form.term options.maxCount with
    | error flaw => exact ofSegments_cons_flawed hissues (terms_of_flaw hterm)
    | ok term =>
      rw [ofSegments_cons_ok hissues (terms_of_term hterm)]
      cases Formula.ofSegments options more with
      | error error => rfl
      | ok rest =>
        simp only [Segment.recognized, Segment.skippedWidth, Nat.zero_add, List.singleton_append]
        rfl

/-- A stretch adds its issue, and what it skips, to what stands behind it. -/
theorem ofSegments_stretch (held : List Lexeme) (more : List Segment) :
    Formula.ofSegments options (Segment.stretch held ++ more) =
      match options.report ((Segment.stretch held).flatMap (Segment.issues options.maxCount)) with
      | .error error => .error error
      | .ok kept => (Formula.ofSegments options more).map fun rest => { rest with
          diagnostics := kept ++ rest.diagnostics
          skipped := textWidth held + rest.skipped } := by
  cases held with
  | nil =>
    rw [Segment.stretch, List.nil_append, List.flatMap_nil, report_nil]
    cases Formula.ofSegments options more with
    | error error => rfl
    | ok rest =>
      simp only [textWidth_nil, Nat.zero_add, List.nil_append]
      rfl
  | cons first others =>
    rw [Segment.stretch, List.singleton_append, List.flatMap_singleton]
    cases hissues : options.report
        ((Segment.skipped first others).issues options.maxCount) with
    | error error => exact ofSegments_cons_error hissues
    | ok kept =>
      rw [ofSegments_cons_ok hissues rfl]
      cases Formula.ofSegments options more with
      | error error => rfl
      | ok rest =>
        simp only [Segment.recognized, Nat.zero_add, List.nil_append]
        rfl

end Ways

/-- What a reading makes of all that a scan has before it and of the stretch that is pending, behind
what the scan has. Up to that stretch, `counted` characters were skipped. -/
def Scanner.rest (options : ReadOptions) (text : List Char) (counted : Nat) (state : Scanner) :
    Reading Formula :=
  (Formula.ofSegments options ((state.held (lexemes text)).foldr Segment.skip
    (segments ((lexemes text).drop state.position)))).map fun rest =>
      (rest.diagnostics, {
        terms := state.terms ++ rest.terms
        recognized := state.recognized + rest.recognized
        skipped := counted + rest.skipped })

section Run
variable {options : ReadOptions} {text : List Char} {state : Scanner} {counted : Nat}

theorem rest_pass (hsound : state.Sound (lexemes text)) {lexeme : Lexeme}
    (hlexeme : (lexemes text)[state.position]? = some lexeme)
    (htake : takeTerm ((lexemes text).drop state.position) = none) :
    (state.pass lexeme).rest options text counted = state.rest options text counted := by
  unfold Scanner.rest
  rw [Scanner.held_pass hsound hlexeme, List.foldr_append, drop_eq_cons hlexeme]
  rw [drop_eq_cons hlexeme] at htake
  rw [segments_cons_of_none htake]
  rfl

theorem rest_take (hcounted : state.skipped = counted + textWidth (state.held (lexemes text)))
    {form : TermForm} {next : Nat}
    (htake : takeTerm ((lexemes text).drop state.position) =
      some (form, (lexemes text).drop next)) :
    state.rest options text counted =
      (options.reading
        ((Segment.stretch (state.held (lexemes text))).flatMap (Segment.issues options.maxCount) ++
          form.issues options.maxCount)
        ((form.made options.maxCount).map (state.take next form.width))).andThen
          (Scanner.rest options text state.skipped) := by
  -- A term ends the stretch, so all that is pending is one segment of its own.
  have hapart : ∀ segment ∈ (segments ((lexemes text).drop state.position)).head?,
      segment.forms ≠ [] := by
    rw [segments_of_takeTerm htake]
    rintro _ ⟨⟩
    exact List.cons_ne_nil _ _
  unfold Scanner.rest
  rw [foldr_skip _ hapart, ofSegments_stretch, segments_of_takeTerm htake, ofSegments_term]
  unfold ReadOptions.reading
  rw [Scan.report_append]
  cases options.report ((Segment.stretch (state.held (lexemes text))).flatMap
      (Segment.issues options.maxCount)) with
  | error error => rfl
  | ok kept =>
    cases options.report (form.issues options.maxCount) with
    | error error => rfl
    | ok noted =>
      cases form.made options.maxCount with
      | error error => rfl
      | ok term =>
        show _ = ((state.take next form.width term).rest options text state.skipped).map
          fun (more, made) => (kept ++ noted ++ more, made)
        unfold Scanner.rest
        show _ = ((Formula.ofSegments options (segments ((lexemes text).drop next))).map _).map _
        cases Formula.ofSegments options (segments ((lexemes text).drop next)) with
        | error error => rfl
        | ok rest =>
          show Except.ok _ = Except.ok _
          simp only [Scanner.take, hcounted, List.append_assoc, List.singleton_append,
            Nat.add_assoc]

theorem rest_end (hcounted : state.skipped = counted + textWidth (state.held (lexemes text)))
    (hend : (lexemes text).length ≤ state.position) :
    state.rest options text counted =
      options.reading
        ((Segment.stretch (state.held (lexemes text))).flatMap (Segment.issues options.maxCount))
        (.ok { terms := state.terms, recognized := state.recognized, skipped := state.skipped }) := by
  unfold Scanner.rest
  rw [List.drop_eq_nil_of_le hend, segments_nil, foldr_skip _ (fun _ h => by cases h),
    ofSegments_stretch]
  unfold ReadOptions.reading
  cases options.report ((Segment.stretch (state.held (lexemes text))).flatMap
      (Segment.issues options.maxCount)) with
  | error error => rfl
  | ok kept =>
    show Except.ok (kept ++ [], _) = Except.ok (kept, _)
    rw [hcounted]
    simp only [List.append_nil, Nat.add_zero]

/-- From any state on, the scan makes what the reading makes. -/
theorem gives_scanFrom (hsound : state.Sound (lexemes text))
    (hcounted : state.skipped = counted + textWidth (state.held (lexemes text))) :
    (scanFrom options text state).Gives text (lexemes text)
      (state.rest options text counted) := by
  -- On the lexemes that are left. What is pending stays in the rest until its stretch ends, so a
  -- skipped lexeme changes nothing there, and `counted` only moves on at a term.
  induction hn : (lexemes text).length - state.position using Nat.strongRecOn
    generalizing state counted with
  | _ n ih =>
    rw [scanFrom]
    split
    · next hposition =>
      have hlexeme := List.getElem?_eq_getElem hposition
      cases htake : takeTerm ((lexemes text).drop state.position) with
      | none =>
        rw [← rest_pass hsound hlexeme htake]
        refine (finds_step_pass options hlexeme htake).andThen ?_
        refine ih _ ?_ (hsound.pass hlexeme) ?_ rfl
        · show (lexemes text).length - (state.position + 1) < n
          omega
        · rw [Scanner.held_pass hsound hlexeme, textWidth_append, textWidth_cons, textWidth_nil]
          show state.skipped + _ = _
          omega
      | some taken =>
        obtain ⟨form, rest⟩ := taken
        obtain ⟨next, rfl, hlt, hnext, hstep⟩ := reports_step_take options hsound htake
        rw [rest_take hcounted htake]
        refine hstep.andThen fun noted value _ hvalue => ?_
        obtain ⟨term, rfl⟩ : ∃ term, value = state.take next form.width term := by
          have hmade := Scan.eq_ok_of_reading hvalue
          cases hterm : form.made options.maxCount with
          | error error =>
            rw [hterm] at hmade
            cases hmade
          | ok term =>
            rw [hterm] at hmade
            cases hmade
            exact ⟨term, rfl⟩
        refine ih _ ?_ (Scanner.sound_take hnext form.width term) rfl rfl
        show (lexemes text).length - next < n
        omega
    · next hposition =>
      rw [rest_end hcounted (Nat.le_of_not_lt hposition)]
      exact (reports_reportPending options hsound).map _

theorem gives_scan (options : ReadOptions) (text : List Char) :
    (scan options text).Gives text (lexemes text)
      ((Formula.ofChars options text).map ([], ·)) := by
  have hsound : Scanner.Sound (lexemes text) {} := ⟨Nat.zero_le _, fun _ _ h => by cases h⟩
  have hrest : Scanner.rest options text 0 {} = (Formula.ofChars options text).map fun formula =>
      (formula.diagnostics, { formula with diagnostics := [] }) := by
    show (Formula.ofChars options text).map _ = _
    cases Formula.ofChars options text with
    | error error => rfl
    | ok formula => simp only [Except.map, Nat.zero_add, List.nil_append]
  have hgives : (scanFrom options text {}).Gives text (lexemes text) _ :=
    gives_scanFrom hsound (Nat.zero_add 0).symm
  rw [hrest] at hgives
  have hscan := hgives.collect fun diagnostics formula => { formula with diagnostics }
  cases hread : Formula.ofChars options text with
  | error error =>
    rw [hread] at hscan
    exact hscan
  | ok formula =>
    rw [hread] at hscan
    exact hscan

end Run

/-! ## Safety -/

theorem le_of_step {options : ReadOptions} {text : List Char} {state next : Scanner}
    (h : (step options text state).result = .ok next) :
    next.position ≤ (lexemes text).length := by
  obtain ⟨matched, hfinds, hfollows⟩ := matches_matchTerm text (lexemes text) state.position
  obtain ⟨found, hfound, h⟩ := Scan.bind_result_eq_ok h
  rw [hfinds.result_eq] at hfound
  cases hfound
  cases matched with
  | none =>
    obtain ⟨lexeme, hlexeme, h⟩ := Scan.bind_result_eq_ok h
    cases h
    by_contra hlt
    rw [lexemeAt, dif_neg (show ¬state.position < (lexemes text).length from
      fun hposition => hlt hposition)] at hlexeme
    cases hlexeme
  | some found =>
    obtain ⟨-, -, h⟩ := Scan.bind_result_eq_ok h
    obtain ⟨taken, -, h⟩ := Scan.bind_result_eq_ok h
    obtain ⟨made, -, h⟩ := Scan.bind_result_eq_ok h
    cases h
    exact hfollows.next_le

theorem result_scan (options : ReadOptions) (text : List Char) :
    (scan options text).result = (Formula.ofChars options text).mapError .failed := by
  have hscan := gives_scan options text
  cases hread : Formula.ofChars options text with
  | error error =>
    rw [hread] at hscan
    exact hscan.result_eq_error rfl
  | ok formula =>
    rw [hread] at hscan
    exact (hscan.result_eq_ok rfl).2

/-- Reading a text by looking its lexemes and characters up never asks for one that is not there,
and ends as the reading does. At every lexeme, whether a term is there or only the front of one, the
longest form is matched without a look behind the end, and a match ends behind its start and inside
the text; so every step gets on. -/
theorem scan_stays_in_range (text : String) (options : ReadOptions) :
    (∀ access ∈ (scan options text.toList).accesses,
      access.InRange text.toList (lexemes text.toList)) ∧
    (∀ access, (scan options text.toList).result ≠ .error (.outOfRange access)) ∧
    (scan options text.toList).result = (Formula.ofText text options).mapError .failed ∧
    (∀ i, ∃ matched, (matchTerm (lexemes text.toList) i).result = .ok matched ∧
      (∀ access ∈ (matchTerm (lexemes text.toList) i).accesses,
        access.InRange text.toList (lexemes text.toList)) ∧
      matched.map (fun (term, next) => (term.form, (lexemes text.toList).drop next)) =
        takeTerm ((lexemes text.toList).drop i) ∧
      ∀ term next, matched = some (term, next) → i < next ∧ next ≤ (lexemes text.toList).length) ∧
    ∀ state next, (step options text.toList state).result = .ok next →
      state.position < next.position ∧ next.position ≤ (lexemes text.toList).length := by
  have hresult := result_scan options text.toList
  refine ⟨(gives_scan options text.toList).inRange, fun access haccess => ?_, hresult, fun i => ?_,
    fun state next hstep => ⟨lt_of_step options text.toList hstep, le_of_step hstep⟩⟩
  · rw [hresult] at haccess
    cases hread : Formula.ofChars options text.toList with
    | error error =>
      rw [hread] at haccess
      cases haccess
    | ok formula =>
      rw [hread] at haccess
      cases haccess
  · obtain ⟨matched, hfinds, hfollows⟩ := matches_matchTerm text.toList (lexemes text.toList) i
    refine ⟨matched, hfinds.result_eq, hfinds.inRange, hfollows.taken_eq.symm, ?_⟩
    rintro term next rfl
    exact ⟨lt_of_matchTerm (lexemes text.toList) hfinds.result_eq, hfollows.next_le⟩

/-- A list that ends behind its colon: its front is looked at, and then the numbers in it, each of
them a term. -/
theorem scan_stays_in_range_unended :
    (scan .lenient "d[1,2:".toList).accesses =
      [.lexeme 2, .lexeme 4, .lexeme 0, .lexeme 1, .lexeme 2, .lexeme 2, .lexeme 0, .lexeme 1,
        .chars 0 2, .lexemes 2 3, .lexeme 3, .lexeme 4, .lexeme 4, .lexeme 3, .lexeme 3,
        .chars 3 4, .lexemes 4 5, .lexeme 5, .lexeme 5, .lexeme 5, .chars 5 6] ∧
    (lexemes "d[1,2:".toList).length = 6 ∧
    (∀ access ∈ (scan .lenient "d[1,2:".toList).accesses,
      access.InRange "d[1,2:".toList (lexemes "d[1,2:".toList)) ∧
    (∀ access, (scan .lenient "d[1,2:".toList).result ≠ .error (.outOfRange access)) ∧
    (∃ term next, (matchTerm (lexemes "d[1,2:".toList) 2).result = .ok (some (term, next)) ∧
      2 < next ∧ next ≤ (lexemes "d[1,2:".toList).length) ∧
    ∃ next, (step .lenient "d[1,2:".toList { position := 2 }).result = .ok next ∧
      2 < next.position ∧ next.position ≤ (lexemes "d[1,2:".toList).length := by
  obtain ⟨hrange, hends, -, hmatch, hsteps⟩ := scan_stays_in_range "d[1,2:" .lenient
  obtain ⟨matched, hmatched, -, -, hnext⟩ := hmatch 2
  have hterm : ∃ term, matched = some (term, 3) := ⟨_, Except.ok.inj hmatched.symm⟩
  obtain ⟨term, rfl⟩ := hterm
  exact ⟨by decide +kernel, by decide, hrange, hends,
    ⟨term, 3, hmatched, hnext term 3 rfl⟩, _, rfl, hsteps { position := 2 } _ rfl⟩

end DiceNotation
