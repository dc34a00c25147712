import DiceNotation.Formula
import DiceNotation.Proofs.Drawing

/-!
How draws go on with the words they are given.

A draw looks at no word behind those it takes, and no words lead it to where it could not end: with
more of them it always does. So whatever a random source has given so far, it can still give words
on which a roll ends, and the words behind these do not matter.

* `Draw.Ends draw`: both of it, and `Draw.Ends.bind`: it is kept when draws follow each other;
* `ends_below` and `ends_weight`: the two ways to choose;
* `Formula.ends_roll` and `Formula.ends_rollWithMode`: whole rolls.
-/
namespace DiceNotation
set_option autoImplicit false

/-! ## Draws that end -/

namespace Draw
variable {α β : Type}

structure Ends (draw : Draw α) : Prop where
  /-- The words behind those that are taken stay as they are. -/
  behind : ∀ words a rest, draw words = some (a, rest) →
    ∀ more, draw (words ++ more) = some (a, rest ++ more)
  /-- After any words there are words to end with. -/
  ends : ∀ words, ∃ more a rest, draw (words ++ more) = some (a, rest)

namespace Ends

theorem pure (a : α) : Ends (Pure.pure a) where
  behind words b rest h more := by
    obtain ⟨rfl, rfl⟩ := draw_pure_eq_some.mp h
    rfl
  ends words := ⟨[], a, words, by rw [List.append_nil]; rfl⟩

theorem bind {draw : Draw α} {next : α → Draw β} (h : draw.Ends) (hnext : ∀ a, (next a).Ends) :
    Ends (draw >>= next) where
  behind words b rest heq more := by
    obtain ⟨a, mid, hfirst, hsecond⟩ := draw_bind_eq_some.mp heq
    exact draw_bind_eq_some.mpr
      ⟨a, mid ++ more, h.behind words a mid hfirst more, (hnext a).behind mid b rest hsecond more⟩
  ends words := by
    obtain ⟨front, a, mid, hfirst⟩ := h.ends words
    obtain ⟨back, b, rest, hsecond⟩ := (hnext a).ends mid
    refine ⟨front ++ back, b, rest, draw_bind_eq_some.mpr ⟨a, mid ++ back, ?_, hsecond⟩⟩
    rw [← List.append_assoc]
    exact h.behind _ a mid hfirst back

end Ends

theorem ends_word : word.Ends where
  behind words w rest h more := by
    cases words with
    | nil => cases h
    | cons first others =>
      cases h
      rfl
  ends words := by
    cases words with
    | nil => exact ⟨[0], 0, [], rfl⟩
    | cons first others => exact ⟨[], first, others, by rw [List.append_nil]; rfl⟩

theorem ends_below (n : Nat) (pos : 0 < n) : (below n pos).Ends := by
  refine ends_word.bind fun w => ?_
  split
  · refine ends_word.bind fun w' => ?_
    split
    · exact .pure _
    · exact .pure _
  · exact .pure _

theorem weight_accepted {n : Nat} {pos : 0 < n} {w : Word} (h : accepts n w = true)
    (words : List Word) : weight n pos (w :: words) = some (⟨w.high n, w.high_lt pos⟩, words) :=
  if_pos h

theorem weight_rejected {n : Nat} {pos : 0 < n} {w : Word} (h : accepts n w = false)
    (words : List Word) : weight n pos (w :: words) = weight n pos words :=
  if_neg (Bool.eq_false_iff.mp h)

theorem ends_weight {n : Nat} (pos : 0 < n) (hn : n < 4294967296) : (weight n pos).Ends where
  behind words i rest h more := by
    induction words with
    | nil => cases h
    | cons w others ih =>
      rw [List.cons_append]
      cases haccepts : accepts n w with
      | true =>
        rw [weight_accepted haccepts] at h ⊢
        cases h
        rfl
      | false =>
        rw [weight_rejected haccepts] at h ⊢
        exact ih h
  ends words := by
    -- Rejected words lead back to where the choice began, and there some words are accepted.
    induction words with
    | nil =>
      obtain ⟨more, rest, hmore⟩ := (reaches_weight hn ⟨0, pos⟩).exists_words
      exact ⟨more, _, rest, hmore⟩
    | cons w others ih =>
      cases haccepts : accepts n w with
      | true => exact ⟨[], _, _, weight_accepted haccepts _⟩
      | false =>
        obtain ⟨more, i, rest, hmore⟩ := ih
        exact ⟨more, i, rest, (weight_rejected haccepts _).trans hmore⟩

theorem ends_repeated {draw : Draw α} (h : draw.Ends) (n : Nat) : (repeated draw n).Ends := by
  induction n with
  | zero => exact .pure []
  | succ n ih => exact h.bind fun first => ih.bind fun more => .pure (first :: more)

end Draw

/-! ## Rolls that end -/

theorem Die.ends_draw (die : Die) : die.draw.Ends := by
  cases die with
  | standard faces => exact (Draw.ends_below _ faces.pos).bind fun i => .pure (faces.face i)
  | custom list => exact (Draw.ends_below _ _).bind fun i => .pure (list.values.get i)
  | weighted table =>
    exact (Draw.ends_weight _ table.total_lt).bind fun chosen => .pure _
  | constant value => exact .pure value

theorem ends_rollTerms (terms : List Term) : (rollTerms terms).Ends := by
  induction terms with
  | nil => exact .pure []
  | cons term more ih =>
    have hterm : term.roll.Ends :=
      (Draw.ends_repeated term.die.ends_draw term.count).bind fun values => .pure (TermRoll.mk term values)
    exact hterm.bind fun first => ih.bind fun rest => .pure (first :: rest)

theorem ends_evaluate (terms : List Term) : (evaluate terms).Ends :=
  (ends_rollTerms terms).bind fun rolled => .pure (Outcome.ofRolled terms rolled)

theorem Mode.evaluate_of_ne_normal {mode : Mode} (hmode : mode ≠ .normal) (terms : List Term) :
    mode.evaluate terms = (do
      let first ← DiceNotation.evaluate terms
      let second ← DiceNotation.evaluate terms
      return mode.select first second) := by
  cases mode with
  | normal => exact absurd rfl hmode
  | advantage => rfl
  | disadvantage => rfl

theorem Mode.ends_evaluate (mode : Mode) (terms : List Term) : (mode.evaluate terms).Ends := by
  have honce := DiceNotation.ends_evaluate terms
  by_cases hmode : mode = .normal
  · subst hmode
    exact honce.bind fun outcome => .pure (ModeOutcome.mk .normal outcome none)
  · rw [Mode.evaluate_of_ne_normal hmode]
    exact honce.bind fun first => honce.bind fun second => .pure (mode.select first second)

namespace Formula

theorem ends_roll (formula : Formula) : formula.roll.Ends := by
  unfold Formula.roll
  split
  · exact .pure Outcome.empty
  · exact DiceNotation.ends_evaluate formula.terms

theorem ends_rollWithMode (formula : Formula) (mode : Mode) :
    (formula.rollWithMode mode).Ends := by
  unfold Formula.rollWithMode
  split
  · exact .pure _
  · exact mode.ends_evaluate formula.terms

end Formula
end DiceNotation
