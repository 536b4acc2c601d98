import Waste.Lib.RangeMap
import Waste.Lib.StateExcept
import Waste.Memory.Runs
import Waste.Lib.Coinduction
import Waste.Types.Subtyping
import Waste.Lib.Simulation
import Waste.Exec.Soundness
import Waste.Exec.BodyRuns
import Waste.Exec.Opcodes
import Waste.Exec.Resume
import Waste.Exec.Locals
import Waste.Process.Runs
import Waste.Memory.Enforcement
import Waste.Memory.Isolation
import Waste.Memory.Growth
import Waste.AddressSpace.Bookkeeping
import Waste.Kernel.Alarm
import Waste.Kernel.Seek
import Waste.Kernel.Deadlock
import Waste.Kernel.SignalMask
import Waste.Libc.HeapRuns
import Waste.Libc.Time
import Waste.Wasm.Sections
import Waste.Vfs.Sha256
import Waste.Libc.Multi
