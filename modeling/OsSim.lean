import OsSim.Victims
import OsSim.Recency
import OsSim.Failure
import OsSim.Disjoint
import OsSim.Backing
import OsSim.Budget
import OsSim.Wakeup
import OsSim.Loader
import OsSim.Requests
import OsSim.Mapping
import OsSim.Leaks
import OsSim.Content
import OsSim.Readback
import OsSim.Privacy
import OsSim.Cpus
import OsSim.Walk
import OsSim.Oversize
import OsSim.Overlap
import OsSim.Clearing
import OsSim.Unallocated
import OsSim.Malformed
import OsSim.Fifo
import OsSim.Encoding
import OsSim.Copy
import OsSim.Sequential
import OsSim.Release
import OsSim.Cpu
import OsSim.LruQueue
import OsSim.FramePool
import OsSim.Slices
import OsSim.Loading
import OsSim.SwapRuns
import OsSim.PgnQueue
import OsSim.ReadConfig
import OsSim.Residence
import OsSim.Serial
import OsSim.Completion
import OsSim.Isolation
import OsSim.RegionNodes
