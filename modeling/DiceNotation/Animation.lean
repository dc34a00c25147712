import DiceNotation.Score

/-!
What an animation of a roll needs: tickets that tell whether it still shows the newest roll, and
the share of the best total that a frame has reached.

A counter moves to the next generation when a roll begins and when rolls are cancelled. A ticket
keeps the generation that its roll began with, so it is current until the counter moves again.
-/
namespace DiceNotation
set_option autoImplicit false

/-! ## Tickets -/

structure Ticket where
  generation : UInt64
deriving DecidableEq

structure TicketCounter where
  generation : UInt64 := 0
deriving DecidableEq

namespace TicketCounter

/-- Makes every ticket stale. -/
def cancel (counter : TicketCounter) : TicketCounter := ⟨counter.generation + 1⟩

/-- Makes every ticket stale but the new one. -/
def issue (counter : TicketCounter) : Ticket × TicketCounter :=
  (⟨counter.generation + 1⟩, counter.cancel)

def isCurrent (counter : TicketCounter) (ticket : Ticket) : Bool :=
  counter.generation == ticket.generation

end TicketCounter

/-! ## Progress -/

/-- The share of a best total that a score has reached, between zero and one, in single precision;
both scores are rounded before they are divided. -/
def Score.progress (score best : Score) : Float32 :=
  if best ≤ .zero then
    0
  else
    let share := Float32.ofInt score.toInt / Float32.ofInt best.toInt
    if share < 0 then 0 else if share > 1 then 1 else share

end DiceNotation
