import DiceNotation.Draw

/-!
Which values a die shows: every draw that ends shows a possible value, and for every possible value
there are words with which the draw ends in it.

* `draw_bind_eq_some`: how a draw in two steps came by its result;
* `Draw.Reaches draw a`: some words make the draw end in `a`, whatever words follow them;
* `reaches_below` and `reaches_weight`: every outcome of a choice is reached, by at most two words
  or by one;
* `mem_possibleValues_of_draw` and `reaches_of_mem_possibleValues`: the two halves, for one die;
* `Term.IsRolled`, `isRolled_of_draw` and `reaches_of_isRolled`: the same for all values of a term.
-/
namespace DiceNotation
set_option autoImplicit false

/-! ## Draws step by step -/

section Steps
variable {α β : Type}

theorem draw_bind_eq_some {draw : Draw α} {next : α → Draw β} {words rest : List Word} {b : β} :
    (draw >>= next) words = some (b, rest) ↔
      ∃ a mid, draw words = some (a, mid) ∧ next a mid = some (b, rest) := by
  show (draw words).bind (fun found => next found.1 found.2) = _ ↔ _
  rw [Option.bind_eq_some_iff]
  exact Prod.exists

theorem draw_pure_eq_some {a b : α} {words rest : List Word} :
    (pure a : Draw α) words = some (b, rest) ↔ b = a ∧ rest = words := by
  show some (a, words) = some (b, rest) ↔ _
  rw [Option.some.injEq, Prod.mk.injEq, eq_comm, @eq_comm _ words]

/-- A draw in two steps, the second of which takes no words. -/
theorem draw_return_eq_some {draw : Draw α} {f : α → β} {words rest : List Word} {b : β} :
    (do let a ← draw; return f a : Draw β) words = some (b, rest) ↔
      ∃ a, draw words = some (a, rest) ∧ b = f a := by
  rw [draw_bind_eq_some]
  constructor
  · rintro ⟨a, mid, hdraw, hpure⟩
    obtain ⟨rfl, rfl⟩ := draw_pure_eq_some.mp hpure
    exact ⟨a, hdraw, rfl⟩
  · rintro ⟨a, hdraw, rfl⟩
    exact ⟨a, rest, hdraw, rfl⟩

theorem draw_map_apply (f : α → β) (draw : Draw α) (words : List Word) :
    (f <$> draw) words = (draw words).map fun drawn => (f drawn.1, drawn.2) := by
  show (draw words).bind (fun drawn => some (f drawn.1, drawn.2)) = _
  cases draw words <;> rfl

/-- What is seen of a draw that ended. -/
theorem draw_map_eq_some {draw : Draw α} {f : α → β} {words rest : List Word} {b : β} :
    (draw words).map (fun drawn => (f drawn.1, drawn.2)) = some (b, rest) ↔
      ∃ a, draw words = some (a, rest) ∧ f a = b := by
  simp [Option.map_eq_some_iff, Prod.exists]

namespace Draw

/-- Some words make the draw end in `a`, whatever words follow them. -/
def Reaches (draw : Draw α) (a : α) : Prop :=
  ∃ used, ∀ rest, draw (used ++ rest) = some (a, rest)

namespace Reaches
variable {draw : Draw α} {a : α}

theorem pure (a : α) : Reaches (Pure.pure a) a := ⟨[], fun _ => rfl⟩

theorem bind {next : α → Draw β} {b : β} (h : draw.Reaches a) (hnext : (next a).Reaches b) :
    Reaches (draw >>= next) b := by
  obtain ⟨used, hused⟩ := h
  obtain ⟨used', hused'⟩ := hnext
  refine ⟨used ++ used', fun rest => draw_bind_eq_some.mpr ⟨a, used' ++ rest, ?_, hused' rest⟩⟩
  rw [List.append_assoc]
  exact hused (used' ++ rest)

theorem map (h : draw.Reaches a) (f : α → β) :
    Reaches (do let a ← draw; return f a) (f a) := h.bind (pure (f a))

theorem exists_words (h : draw.Reaches a) : ∃ words rest, draw words = some (a, rest) := by
  obtain ⟨used, hused⟩ := h
  exact ⟨used ++ [], [], hused []⟩

end Reaches
end Draw
end Steps

/-! ## Reaching an outcome of a choice -/

namespace Draw
variable {n : Nat} {pos : 0 < n}

/-- The multiples of `n` by words are no further apart than `n`. -/
theorem exists_word_mul (pos : 0 < n) {s : Nat} (h : s + n ≤ n * 4294967296) :
    ∃ w : Word, s ≤ w.toNat * n ∧ w.toNat * n < s + n := by
  have hdiv := Nat.div_add_mod (s + (n - 1)) n
  have hmod := Nat.mod_lt (s + (n - 1)) pos
  generalize (s + (n - 1)) / n = q at hdiv
  have hq : q < 4294967296 := by
    refine Nat.lt_of_mul_lt_mul_left (a := n) ?_
    omega
  have hword : (UInt32.ofNat q).toNat = q := UInt32.toNat_ofNat_of_lt' hq
  refine ⟨UInt32.ofNat q, ?_, ?_⟩ <;> rw [hword, Nat.mul_comm] <;> omega

theorem reaches_below (hn : n < 4294967296) (i : Fin n) : (below n pos).Reaches i := by
  obtain ⟨i, hi⟩ := i
  have hmul : (i + 1) * 4294967296 ≤ n * 4294967296 := Nat.mul_le_mul_right _ hi
  obtain ⟨w, hge, hlt⟩ := exists_word_mul pos (s := i * 4294967296) (by omega)
  have hhigh : w.high n = i := by
    unfold Word.high
    omega
  subst hhigh
  by_cases hopen : 4294967296 - n < w.low n
  · -- The second word is zero, so it adds nothing.
    refine ⟨[w, 0], fun rest => ?_⟩
    have hzero : ¬4294967296 ≤ w.low n + Word.high 0 n := by
      have hlow : w.low n < 4294967296 := Nat.mod_lt _ (by decide)
      have hhigh : Word.high 0 n = 0 := by simp [Word.high]
      omega
    refine draw_bind_eq_some.mpr ⟨w, 0 :: rest, rfl, ?_⟩
    rw [dif_pos hopen]
    refine draw_bind_eq_some.mpr ⟨0, rest, rfl, ?_⟩
    rw [if_neg hzero]
    rfl
  · refine ⟨[w], fun rest => draw_bind_eq_some.mpr ⟨w, rest, rfl, ?_⟩⟩
    rw [dif_neg hopen]
    rfl

theorem reaches_weight (hn : n < 4294967296) (i : Fin n) : (weight n pos).Reaches i := by
  obtain ⟨i, hi⟩ := i
  have hmul : (i + 1) * 4294967296 ≤ n * 4294967296 := Nat.mul_le_mul_right _ hi
  have hrest : 4294967296 % n + n ≤ 4294967296 := by
    have hdiv := Nat.div_add_mod 4294967296 n
    have hone : n * 1 ≤ n * (4294967296 / n) :=
      Nat.mul_le_mul_left n (Nat.div_pos (Nat.le_of_lt hn) pos)
    omega
  obtain ⟨w, hge, hlt⟩ :=
    exists_word_mul pos (s := i * 4294967296 + 4294967296 % n) (by omega)
  have hhigh : w.high n = i := by
    unfold Word.high
    omega
  have haccepts : accepts n w = true := by
    rw [accepts, decide_eq_true_eq, Word.low]
    omega
  subst hhigh
  exact ⟨[w], fun rest => if_pos haccepts⟩

theorem reaches_repeated {α : Type} {draw : Draw α} {values : List α}
    (h : ∀ a ∈ values, draw.Reaches a) : (repeated draw values.length).Reaches values := by
  induction values with
  | nil => exact .pure []
  | cons first more ih =>
    obtain ⟨hfirst, hmore⟩ := List.forall_mem_cons.mp h
    exact hfirst.bind ((ih hmore).map (first :: ·))

theorem repeated_eq_some {α : Type} {draw : Draw α} {n : Nat} {words rest : List Word}
    {values : List α} (h : repeated draw n words = some (values, rest)) :
    values.length = n ∧ ∀ a ∈ values, ∃ words rest, draw words = some (a, rest) := by
  induction n generalizing words values with
  | zero =>
    obtain ⟨rfl, -⟩ := draw_pure_eq_some.mp h
    exact ⟨rfl, nofun⟩
  | succ n ih =>
    obtain ⟨first, mid, hfirst, hrest⟩ := draw_bind_eq_some.mp h
    obtain ⟨more, hmore, rfl⟩ := draw_return_eq_some.mp hrest
    obtain ⟨hlength, hall⟩ := ih hmore
    exact ⟨by rw [List.length_cons, hlength],
      List.forall_mem_cons.mpr ⟨⟨words, mid, hfirst⟩, hall⟩⟩

end Draw

/-! ## One value of a die -/

theorem WeightTable.total_lt (table : WeightTable) : table.index.total < 4294967296 := by
  rw [table.index_total]
  exact Nat.lt_succ_of_le table.total_le

/-- Every entry of a table is picked by the weight before it. -/
theorem WeightTable.exists_face_eq {table : WeightTable} {face : Score} (h : face ∈ table.values) :
    ∃ chosen < table.index.total, table.face chosen = face := by
  obtain ⟨i, hi, hface⟩ := List.getElem_of_mem h
  have hlength : i < table.entries.length := by rwa [WeightTable.values, List.length_map] at hi
  have hpos := table.positive _ (List.getElem_mem hlength)
  have hsucc := weightTotal_take_succ hlength
  have hle := weightTotal_take_le (show i + 1 ≤ table.entries.length from hlength) table.entries
  rw [List.take_length, ← table.indexes.total] at hle
  have hchosen : weightTotal (table.entries.take i) < table.index.total := by omega
  have hfind := (table.indexes.find_eq_iff hchosen hlength).mpr ⟨Nat.le_refl _, by omega⟩
  refine ⟨_, hchosen, ?_⟩
  simp only [WeightTable.face, hfind, ← hface, WeightTable.values, List.getElem_map,
    List.get_eq_getElem]

/-- A list of faces is short enough for a word to number them. -/
def Die.FitsWord : Die → Prop
  | .custom list => list.values.length < 4294967296
  | _ => True

theorem mem_possibleValues_of_draw {die : Die} {words rest : List Word} {value : Score}
    (h : die.draw words = some (value, rest)) : value ∈ die.possibleValues := by
  cases die with
  | standard faces =>
    obtain ⟨i, -, rfl⟩ := draw_return_eq_some.mp h
    exact List.mem_map_of_mem (List.mem_finRange i)
  | custom list =>
    obtain ⟨i, -, rfl⟩ := draw_return_eq_some.mp h
    exact List.get_mem list.values i
  | weighted table =>
    obtain ⟨chosen, -, rfl⟩ := draw_return_eq_some.mp h
    exact List.mem_map_of_mem (List.get_mem table.entries _)
  | constant face =>
    obtain ⟨rfl, -⟩ := draw_pure_eq_some.mp h
    exact List.mem_singleton.mpr rfl

theorem reaches_of_mem_possibleValues {die : Die} {value : Score} (hfits : die.FitsWord)
    (h : value ∈ die.possibleValues) : die.draw.Reaches value := by
  cases die with
  | standard faces =>
    obtain ⟨i, -, rfl⟩ := List.mem_map.mp h
    have hcount := faces.le
    exact (Draw.reaches_below (by omega) i).map faces.face
  | custom list =>
    obtain ⟨i, rfl⟩ := List.mem_iff_get.mp h
    exact (Draw.reaches_below hfits i).map list.values.get
  | weighted table =>
    obtain ⟨chosen, hlt, rfl⟩ := table.exists_face_eq h
    exact (Draw.reaches_weight table.total_lt ⟨chosen, hlt⟩).map fun chosen => table.face chosen
  | constant value =>
    cases List.mem_singleton.mp h
    exact .pure value

/-! ## All values of a term -/

/-- As many values as the term counts, all of them possible. -/
structure Term.IsRolled (term : Term) (values : List Score) : Prop where
  length_eq : values.length = term.count
  possible : ∀ value ∈ values, value ∈ term.die.possibleValues

theorem isRolled_of_draw {term : Term} {words rest : List Word} {values : List Score}
    (h : term.draw words = some (values, rest)) : term.IsRolled values := by
  obtain ⟨hlength, hvalues⟩ := Draw.repeated_eq_some h
  refine ⟨hlength, fun value hvalue => ?_⟩
  obtain ⟨words', rest', hdraw⟩ := hvalues value hvalue
  exact mem_possibleValues_of_draw hdraw

theorem reaches_of_isRolled {term : Term} {values : List Score} (hfits : term.die.FitsWord)
    (h : term.IsRolled values) : term.draw.Reaches values := by
  rw [Term.draw, ← h.length_eq]
  exact Draw.reaches_repeated fun value hvalue =>
    reaches_of_mem_possibleValues hfits (h.possible value hvalue)

end DiceNotation
