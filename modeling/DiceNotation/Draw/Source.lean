import DiceNotation.Draw

/-!
A source of random words: a script of words, and after it a SplitMix64 sequence.

`Source.run` gives a draw as many words as it needs. It tries the draw on ever longer beginnings of
the sequence. A draw that takes its words one by one from the front and ends on one beginning ends
in the same way on every longer one, so the answer does not depend on the length that was tried.
`Source.generator` runs every draw on the sequence that starts at a seed.
-/
namespace DiceNotation
set_option autoImplicit false

structure Source where
  script : List Word := []
  state : UInt64 := 0
  /-- How many words were taken before. -/
  taken : Nat := 0

namespace Source

/-- One step of SplitMix64: the high half of the mixed state, and the next state. -/
def mix (state : UInt64) : Word × UInt64 :=
  let s := state + 0x9E3779B97F4A7C15
  let z := (s ^^^ (s >>> 30)) * 0xBF58476D1CE4E5B9
  let z := (z ^^^ (z >>> 27)) * 0x94D049BB133111EB
  let z := z ^^^ (z >>> 31)
  ((z >>> 32).toUInt32, s)

def next (source : Source) : Word × Source :=
  match source.script with
  | w :: script => (w, { source with script, taken := source.taken + 1 })
  | [] =>
    let (w, state) := mix source.state
    (w, { source with state, taken := source.taken + 1 })

def words (source : Source) : Nat → List Word
  | 0 => []
  | n + 1 => source.next.1 :: source.next.2.words n

def skip (source : Source) : Nat → Source
  | 0 => source
  | n + 1 => source.next.2.skip n

/-- Runs a draw on `budget` words, and on twice as many after each failure. -/
def runWithin {α : Type} (source : Source) (draw : Draw α) : (rounds budget : Nat) →
    Option (α × Source)
  | 0, _ => none
  | rounds + 1, budget =>
    match draw (source.words budget) with
    | some (result, rest) => some (result, source.skip (budget - rest.length))
    | none => runWithin source draw rounds (2 * budget)

/-- Runs a draw, with up to 2^37 words. -/
def run {α : Type} (source : Source) (draw : Draw α) : Option (α × Source) :=
  source.runWithin draw 32 64

theorem exists_words_of_runWithin {α : Type} {source rest : Source} {draw : Draw α} {result : α}
    {rounds budget : Nat} (h : source.runWithin draw rounds budget = some (result, rest)) :
    ∃ words unused, draw words = some (result, unused) := by
  induction rounds generalizing budget with
  | zero => cases h
  | succ rounds ih =>
    rw [runWithin] at h
    split at h
    · next found unused hdraw =>
      cases h
      exact ⟨_, unused, hdraw⟩
    · exact ih h

/-- Starts at the seed, or at a fresh state if there is none. -/
def generator (fresh : UInt64) : Generator where
  run seed draw := (run { state := seed.elim fresh UInt64.ofNat } draw).map Prod.fst
  exists_words _ _ _ h := by
    obtain ⟨⟨found, rest⟩, hrun, rfl⟩ := Option.map_eq_some_iff.mp h
    exact exists_words_of_runWithin hrun

end Source

end DiceNotation
