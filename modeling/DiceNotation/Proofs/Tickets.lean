import DiceNotation.Animation

/-!
Tickets on a counter that is shared by any number of callers.

Every call is one step of the counter, so whatever the callers do together is a list of calls, each
with the caller that made it, in the order in which the counter served them. The points of a run
are the beginnings of that list.

* `TicketCounter.serve`: one call;
* `TicketCounter.after` and `TicketCounter.answers`: the counter behind a run of calls, its answers;
* `toNat_generation_after`: the generation counts the calls, modulo 2^64 (`UInt64.size`);
* `isCurrent_atPoint_iff`: a ticket is current right behind its call and after each further 2^64
  calls, with no bound on the run;
* `newest_ticket_alone_is_current`: so in a run of fewer than 2^64 calls a ticket has the number of
  its call, and it is current until the next call and never again.
-/
namespace DiceNotation
set_option autoImplicit false

/-- What a caller may ask of the counter. -/
inductive Call where
  | issue
  | cancel
deriving DecidableEq

namespace TicketCounter
variable {Caller : Type}

/-- The answer to one call, and the counter behind it. -/
def serve (counter : TicketCounter) : Call → Option Ticket × TicketCounter
  | .issue => (some counter.issue.1, counter.issue.2)
  | .cancel => (none, counter.cancel)

/-- The counter behind a run of calls, whoever makes them. -/
def after (counter : TicketCounter) : List (Caller × Call) → TicketCounter
  | [] => counter
  | (_, call) :: more => (counter.serve call).2.after more

/-- The answers to a run of calls, one for each. -/
def answers (counter : TicketCounter) : List (Caller × Call) → List (Option Ticket)
  | [] => []
  | (_, call) :: more => (counter.serve call).1 :: (counter.serve call).2.answers more

/-! ## One call -/

theorem toNat_generation_serve (counter : TicketCounter) (call : Call) :
    (counter.serve call).2.generation.toNat = (counter.generation.toNat + 1) % UInt64.size := by
  cases call with
  | issue => exact UInt64.toNat_add counter.generation 1
  | cancel => exact UInt64.toNat_add counter.generation 1

/-! ## A run of calls -/

theorem toNat_generation_after (counter : TicketCounter) (run : List (Caller × Call)) :
    (counter.after run).generation.toNat =
      (counter.generation.toNat + run.length) % UInt64.size := by
  induction run generalizing counter with
  | nil => exact (Nat.mod_eq_of_lt counter.generation.toNat_lt).symm
  | cons event more ih =>
    have hstep := toNat_generation_serve counter event.2
    rw [after, ih, hstep, List.length_cons, Nat.mod_add_mod, Nat.add_assoc, Nat.add_comm 1]

/-- A call is answered by the counter that the calls before it left behind. -/
theorem getElem?_answers (counter : TicketCounter) (run : List (Caller × Call)) (k : Nat) :
    (counter.answers run)[k]? =
      run[k]?.map fun event => ((counter.after (run.take k)).serve event.2).1 := by
  induction run generalizing counter k with
  | nil => rfl
  | cons event more ih =>
    cases k with
    | zero => rfl
    | succ k =>
      have hmore := ih (counter.serve event.2).2 k
      rw [answers, List.getElem?_cons_succ, List.getElem?_cons_succ, hmore, List.take_succ_cons]
      rfl

/-! ## The tickets of a run -/

/-- In a run on a new counter, the call with `k` calls before it is answered with `ticket`. -/
def Issues (run : List (Caller × Call)) (k : Nat) (ticket : Ticket) : Prop :=
  (TicketCounter.answers {} run)[k]? = some (some ticket)

instance (run : List (Caller × Call)) (k : Nat) (ticket : Ticket) :
    Decidable (Issues run k ticket) :=
  inferInstanceAs (Decidable (_ = _))

/-- The counter at the point of a run that has `n` calls before it. -/
def atPoint (run : List (Caller × Call)) (n : Nat) : TicketCounter :=
  TicketCounter.after {} (run.take n)

theorem toNat_generation_atPoint {run : List (Caller × Call)} {n : Nat} (hn : n ≤ run.length) :
    (atPoint run n).generation.toNat = n % UInt64.size := by
  have hgeneration := toNat_generation_after {} (run.take n)
  rw [List.length_take, Nat.min_eq_left hn] at hgeneration
  rw [atPoint, hgeneration, show (TicketCounter.generation {}).toNat = 0 from rfl, Nat.zero_add]

theorem toNat_generation_issue (counter : TicketCounter) :
    counter.issue.1.generation.toNat = (counter.generation.toNat + 1) % UInt64.size :=
  toNat_generation_serve counter .issue

/-- The calls that are answered with a ticket are those that ask for one, and the number of the call
is all that the ticket tells. -/
theorem issues_iff (run : List (Caller × Call)) (k : Nat) (ticket : Ticket) :
    Issues run k ticket ↔
      (∃ caller, run[k]? = some (caller, .issue)) ∧
        ticket.generation.toNat = (k + 1) % UInt64.size := by
  rw [Issues, getElem?_answers]
  cases hcall : run[k]? with
  | none => simp
  | some event =>
    obtain ⟨caller, call⟩ := event
    have hpoint := toNat_generation_atPoint (Nat.le_of_lt (List.getElem?_eq_some_iff.mp hcall).1)
    have hissue := toNat_generation_issue (atPoint run k)
    rw [hpoint, Nat.mod_add_mod] at hissue
    cases call with
    | cancel => simp [serve]
    | issue =>
      constructor
      · intro h
        have hticket : (atPoint run k).issue.1 = ticket := by simpa [serve, atPoint] using h
        exact ⟨⟨caller, rfl⟩, hticket ▸ hissue⟩
      · rintro ⟨-, hticket⟩
        -- A ticket is no more than its generation, and that is below 2^64 on either side.
        have hsame : (atPoint run k).issue.1.generation = ticket.generation :=
          UInt64.toNat_inj.mp (hissue.trans hticket.symm)
        have hissued : (atPoint run k).issue.1 = ticket := congrArg Ticket.mk hsame
        exact congrArg (some ∘ some) hissued

theorem isCurrent_eq_true (counter : TicketCounter) (ticket : Ticket) :
    counter.isCurrent ticket = true ↔
      counter.generation.toNat = ticket.generation.toNat := by
  rw [isCurrent, beq_iff_eq, UInt64.toNat_inj]

/-- Where the generations run out: the calls behind a ticket's own are a multiple of 2^64. -/
theorem isCurrent_atPoint_iff {run : List (Caller × Call)} {k n : Nat} {ticket : Ticket}
    (hissued : Issues run k ticket) (hkn : k < n) (hn : n ≤ run.length) :
    (atPoint run n).isCurrent ticket = true ↔ UInt64.size ∣ n - (k + 1) := by
  have hticket := ((issues_iff run k ticket).mp hissued).2
  rw [isCurrent_eq_true, toNat_generation_atPoint hn, hticket]
  unfold UInt64.size
  omega

end TicketCounter

open TicketCounter

/-- A ticket has the number of its call, tickets of different calls differ, and a ticket is current
exactly as long as no call stands behind its own; so no two tickets are current at one point, and a
stale ticket stays stale. -/
theorem newest_ticket_alone_is_current {Caller : Type} (run : List (Caller × Call))
    (hlength : run.length < UInt64.size) :
    (∀ k ticket, Issues run k ticket ↔
      (∃ caller, run[k]? = some (caller, .issue)) ∧ ticket.generation.toNat = k + 1) ∧
    (∀ j k ticket, Issues run j ticket → Issues run k ticket → j = k) ∧
    (∀ k ticket, Issues run k ticket → ∀ n, k < n → n ≤ run.length →
      ((atPoint run n).isCurrent ticket = true ↔ (run.take n).drop (k + 1) = [])) ∧
    (∀ n, n ≤ run.length → ∀ j ticket k other, j < n → k < n →
      Issues run j ticket → Issues run k other →
      (atPoint run n).isCurrent ticket = true → (atPoint run n).isCurrent other = true →
      ticket = other) ∧
    (∀ k ticket, Issues run k ticket → ∀ m n, k < m → m ≤ n → n ≤ run.length →
      (atPoint run m).isCurrent ticket = false → (atPoint run n).isCurrent ticket = false) := by
  have hnumber : ∀ k ticket, Issues run k ticket ↔
      (∃ caller, run[k]? = some (caller, .issue)) ∧ ticket.generation.toNat = k + 1 := by
    intro k ticket
    rw [issues_iff]
    refine and_congr_right fun hcall => ?_
    obtain ⟨caller, hcall⟩ := hcall
    have hk := (List.getElem?_eq_some_iff.mp hcall).1
    rw [Nat.mod_eq_of_lt (by omega)]
  have hcurrent : ∀ k ticket, Issues run k ticket → ∀ n, k < n → n ≤ run.length →
      ((atPoint run n).isCurrent ticket = true ↔ n = k + 1) := by
    intro k ticket hissued n hkn hn
    rw [isCurrent_atPoint_iff hissued hkn hn]
    unfold UInt64.size at hlength ⊢
    omega
  refine ⟨hnumber, ?_, ?_, ?_, ?_⟩
  · intro j k ticket hj hk
    have hnumberj := ((hnumber j ticket).mp hj).2
    have hnumberk := ((hnumber k ticket).mp hk).2
    omega
  · intro k ticket hissued n hkn hn
    rw [hcurrent k ticket hissued n hkn hn, List.drop_eq_nil_iff, List.length_take]
    omega
  · intro n hn j ticket k other hjn hkn hticket hother hcurrentTicket hcurrentOther
    have hj := (hcurrent j ticket hticket n hjn hn).mp hcurrentTicket
    have hk := (hcurrent k other hother n hkn hn).mp hcurrentOther
    obtain rfl : j = k := by omega
    have hsame : some (some ticket) = some (some other) := hticket.symm.trans hother
    exact Option.some.inj (Option.some.inj hsame)
  · intro k ticket hissued m n hkm hmn hn hstale
    have hm := hcurrent k ticket hissued m hkm (Nat.le_trans hmn hn)
    have hnext := hcurrent k ticket hissued n (Nat.lt_of_lt_of_le hkm hmn) hn
    rw [← Bool.not_eq_true, hm] at hstale
    rw [← Bool.not_eq_true, hnext]
    omega

theorem newest_ticket_alone_is_current_interleaved :
    let run : List (String × Call) :=
      [("left", .issue), ("right", .issue), ("left", .cancel), ("right", .issue)]
    run.length < UInt64.size ∧ Issues run 1 ⟨2⟩ ∧
      ((atPoint run 2).isCurrent ⟨2⟩ = true ↔ (run.take 2).drop 2 = []) ∧
      ((atPoint run 3).isCurrent ⟨2⟩ = true ↔ (run.take 3).drop 2 = []) := by
  intro run
  have hlength : run.length < UInt64.size := by decide
  have hissued : Issues run 1 ⟨2⟩ := by decide
  obtain ⟨-, -, hcurrent, -, -⟩ := newest_ticket_alone_is_current run hlength
  exact ⟨hlength, hissued, hcurrent 1 ⟨2⟩ hissued 2 (by decide) (by decide),
    hcurrent 1 ⟨2⟩ hissued 3 (by decide) (by decide)⟩

end DiceNotation
