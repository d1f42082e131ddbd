import UfsFuse.BfsRoundTrip
import UfsFuse.Check
import UfsFuse.Format
import UfsFuse.Rename
import UfsFuse.Derived
import UfsFuse.NameRoundTrip
import UfsFuse.PointerTrees
import UfsFuse.Allocations
import UfsFuse.ReadOnlyMount
import UfsFuse.SliceLayout
import UfsFuse.VtocRoundTrip
import UfsFuse.AlternatesTables
import UfsFuse.Repair
import UfsFuse.Resolve
import UfsFuse.Stamps
import UfsFuse.Walk
import UfsFuse.Remap
import UfsFuse.Chs
import UfsFuse.SlicePlan
import UfsFuse.Bootstrap
import UfsFuse.Errnos
import UfsFuse.BfsTotal
import UfsFuse.Records
import UfsFuse.Ranges
import UfsFuse.Symlinks
import UfsFuse.Attributes
import UfsFuse.Waste
import UfsFuse.EmptyVolume
import UfsFuse.Histories
import UfsFuse.Populated
import UfsFuse.Sessions
import UfsFuse.Placed
import UfsFuse.PlacedWrites
import UfsFuse.PlacedCalls
import UfsFuse.BfsSlice
import UfsFuse.DiskTool
import UfsFuse.SliceDisk
import UfsFuse.ToolRuns
import UfsFuse.Detected
import UfsFuse.ToolReports
import UfsFuse.ToolMounts
