import Maybenot.Lib.BinaryHeap
import Maybenot.Lib.Ieee
import Maybenot.Proofs.Signals
import Maybenot.Proofs.Padding
import Maybenot.Proofs.Isolation
import Maybenot.Sim.Parse
import Maybenot.Proofs.Sync
import Maybenot.Proofs.Overshoot
import Maybenot.Proofs.Blockage
import Maybenot.Proofs.Safe
import Maybenot.Proofs.Chain
import Maybenot.Proofs.Conserved
import Maybenot.Proofs.Progress
import Maybenot.Proofs.Fence
import Maybenot.Proofs.Serialized
import Maybenot.Proofs.Legacy
import Maybenot.Proofs.Traces
import Maybenot.Proofs.Reproduced
import Maybenot.Proofs.Quiet
import Maybenot.Proofs.Valid
import Maybenot.Proofs.Bounded
import Maybenot.Proofs.Limits
import Maybenot.Proofs.Rounds
import Maybenot.Proofs.Timers
import Maybenot.Proofs.Fifo
import Maybenot.Proofs.Estimate
import Maybenot.Proofs.Written
import Maybenot.Proofs.ParserSafe
import Maybenot.Proofs.Absorbed
import Maybenot.Proofs.Refreshed
import Maybenot.Proofs.Binned
import Maybenot.Proofs.Epoch
import Maybenot.Proofs.Ends
import Maybenot.Proofs.Delivered
import Maybenot.Proofs.Sessions
import Maybenot.Proofs.Actions
import Maybenot.Proofs.Requests
import Maybenot.Proofs.Budget
import Maybenot.Proofs.Hosted
import Maybenot.Lib.Nearest
import Maybenot.Proofs.Sampled
import Maybenot.Proofs.Passive
import Maybenot.Proofs.Alongside
import Maybenot.Proofs.Unheard
import Maybenot.Proofs.Batches
import Maybenot.Proofs.Imported
import Maybenot.Proofs.Timeless
import Maybenot.Proofs.Chanceless
