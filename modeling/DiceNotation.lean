import DiceNotation.Animation
import DiceNotation.Json.Reading
import DiceNotation.Main
import DiceNotation.Proofs.Strictness
import DiceNotation.Proofs.LongestMatch
import DiceNotation.Proofs.Canonical
import DiceNotation.Proofs.Writable
import DiceNotation.Proofs.Frames
import DiceNotation.Proofs.Spacing
import DiceNotation.Proofs.Coverage
import DiceNotation.Proofs.Building
import DiceNotation.Proofs.Decoding
import DiceNotation.Proofs.Indexing
import DiceNotation.Proofs.RoundTrip
import DiceNotation.Proofs.Validity
import DiceNotation.Proofs.Tickets
import DiceNotation.Proofs.Joining
import DiceNotation.Proofs.Blankness
import DiceNotation.Proofs.Faults
import DiceNotation.Proofs.Breakdown
import DiceNotation.Proofs.Exactness
import DiceNotation.Proofs.Modes
import DiceNotation.Proofs.DiceSequence
import DiceNotation.Proofs.Weighing
import DiceNotation.Proofs.Limits
import DiceNotation.Proofs.Pointing
import DiceNotation.Proofs.Usability
import DiceNotation.Proofs.Positions
import DiceNotation.Proofs.Spans
import DiceNotation.Proofs.Overflow
import DiceNotation.Proofs.Checking
import DiceNotation.Proofs.Access
import DiceNotation.Proofs.Matching
import DiceNotation.Proofs.Scanning
