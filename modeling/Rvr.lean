import Rvr.Verify.Zicsr
import Rvr.Verify.Bitmanip
import Rvr.Verify.Worklist
import Rvr.Verify.Transfer
import Rvr.Verify.Dispatch
import Rvr.Verify.Shifts
import Rvr.Verify.DecodeOrder
import Rvr.Verify.Compressed
import Rvr.Verify.Temps
import Rvr.Verify.Instret
import Rvr.Verify.Stepping
import Rvr.Verify.X64.Address
import Rvr.Verify.X64.Trees
import Rvr.Verify.Blocks
import Rvr.Verify.Runner.Snapshot
import Rvr.Verify.Heap
import Rvr.Verify.Tracers
import Rvr.Verify.Suspension
import Rvr.Verify.Registers
import Rvr.Verify.Predecessors
import Rvr.Verify.Partition
import Rvr.Verify.A64.LogicalImm
import Rvr.Verify.Helpers
import Rvr.Verify.Merge
import Rvr.Verify.StaleMappings
import Rvr.Verify.Runner.Checkpoint
import Rvr.Verify.Lookups
