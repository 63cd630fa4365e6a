import NjuOs.FileSystem.Counts
import NjuOs.FileSystem.RoundTrip
import NjuOs.FileSystem.DirectoryUse
import NjuOs.Process.PcbManager
import NjuOs.Drivers.SectorCache
import NjuOs.Drivers.Timer
import NjuOs.Drivers.Bounds
import NjuOs.Process.Message
import NjuOs.Process.Schedule
import NjuOs.Process.Waitpid
import NjuOs.FileSystem.Walkers
import NjuOs.Process.Exceptions
import NjuOs.FileSystem.Entries
import NjuOs.FileSystem.PathEnds
import NjuOs.FileSystem.Removal
import NjuOs.FileSystem.Deletion
import NjuOs.FileSystem.Creation
import NjuOs.FileSystem.Descriptors
import NjuOs.Memory.Arguments
import NjuOs.Memory.ForkStack
import NjuOs.Memory.Heap
import NjuOs.Memory.Lifetimes
import NjuOs.Process.Lock
import NjuOs.Drivers.Clock
import NjuOs.Drivers.Keyboard
import NjuOs.Shell.Paths
import NjuOs.Allocators
import NjuOs.Memory.Confinement
import NjuOs.Process.Progress
import NjuOs.Interrupts.Handlers
import NjuOs.Drivers.Printk
import NjuOs.Boot.Bootmain
import NjuOs.Drivers.Hal
import NjuOs.Memory.KernelSpace
import NjuOs.FileSystem.Names
