import Tapasco.AllocatorRequests
import Tapasco.AllocatorWords
import Tapasco.Vfio
import Tapasco.IrqSetup
import Tapasco.KernelBuffers
import Tapasco.SystemHandOver
import Tapasco.Access
import Tapasco.SvmUserManaged
import Tapasco.StatusAreas
import Tapasco.SimDma
import Tapasco.SimInterruptLines
import Tapasco.ExplorationComplete
import Tapasco.Tasks
import Tapasco.JobArguments
import Tapasco.JobBuffers
import Tapasco.DeviceSetup
import Tapasco.DmaPool
import Tapasco.DmaTransfers
import Tapasco.JobBusy
import Tapasco.ZynqBuffers
import Tapasco.SvmTree
import Tapasco.SvmTlb
import Tapasco.ComponentTable
import Tapasco.PlatformComponents
import Tapasco.QdmaStream
import Tapasco.MemoryMasters
import Tapasco.OutputDir
import Tapasco.Template
import Tapasco.Interpolator
import Tapasco.SequenceMatcher
