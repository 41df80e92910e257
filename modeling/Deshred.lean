import Deshred.Lib.Steps
import Deshred.Lib.Projection
import Deshred.Lib.FixedBits
import Deshred.Lib.Runs
import Deshred.Lib.OrdMap
import Deshred.Lib.KeyedSort
import Deshred.Lib.MerkleLevels
import Deshred.Bytes
import Deshred.Sha256
import Deshred.Shred
import Deshred.Regions
import Deshred.Merkle
import Deshred.Fec
import Deshred.FecInvariant
import Deshred.FecRecover
import Deshred.Slot
import Deshred.SlotInsert
import Deshred.SlotInvariant
import Deshred.Deshredder
import Deshred.SlotRuns
import Deshred.Window
import Deshred.Emission
import Deshred.Wire
import Deshred.Format
import Deshred.Tampering
import Deshred.Safety
import Deshred.Stranded
import Deshred.Leader
import Deshred.LeaderFec
import Deshred.LeaderSlot
import Deshred.Delivery
import Deshred.Sealing
import Deshred.Codeword
import Deshred.Feeding
import Deshred.Wedge
import Deshred.Lookback
import Deshred.Advance
import Deshred.Alike
import Deshred.Genuine
import Deshred.Forgery
import Deshred.FecRuns
import Deshred.Layout
import Deshred.SetShape
import Deshred.Template
import Deshred.Expectations
import Deshred.Traceless
import Deshred.Isolation
import Deshred.Footprint
import Deshred.Eager
import Deshred.Pipeline
import Deshred.Socket
import Deshred.Unproven
import Deshred.View
import Deshred.Shortvec
import Deshred.Transaction
import Deshred.Scanning
import Deshred.Segment
import Deshred.Entries
import Deshred.Signature
import Deshred.Truncated
import Deshred.Bounded
import Deshred.Fixture
import Deshred.Replay
import Deshred.Decoding
import Deshred.Session
import Deshred.Shutdown
import Deshred.Ledger
import Deshred.Degraded
import Deshred.Latency
import Deshred.Arrival
import Deshred.Capture
import Deshred.Readback
import Deshred.Waits
import Deshred.Analysis
import Deshred.Measures
