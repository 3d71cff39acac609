import Fennix.Memory.PhysicalOwnership
import Fennix.Memory.PhysicalHint
import Fennix.Memory.PhysicalAccounting
import Fennix.Memory.Permissions
import Fennix.Memory.FlagCheck
import Fennix.Memory.Mprotect
import Fennix.Memory.Brk
import Fennix.Memory.VirtualBacking
import Fennix.Memory.KernelHeap
import Fennix.Fs.Ramfs
import Fennix.Fs.Ustar
import Fennix.Fs.DescriptorOffset
import Fennix.Fs.Vectored
import Fennix.Fs.DescriptorClose
import Fennix.Fs.DescriptorNumbers
import Fennix.Fs.DescriptorDup
import Fennix.Fs.DescriptorFork
import Fennix.Fs.FileSystems
import Fennix.Core.LockExclusion
import Fennix.Tasking.SignalQueue
import Fennix.Tasking.SignalReturn
import Fennix.Tasking.Wait
import Fennix.Tasking.Halted
import Fennix.Driver.Manager
import Fennix.Tasking.RoundRobin
import Fennix.Interpreter.Relocations
import Fennix.Libc.StdioRead
import Fennix.Libc.StdioWrite
import Fennix.Libc.Time
import Fennix.Driver.Ahci
import Fennix.Exec.LoaderImage
import Fennix.Memory.StackGuard
import Fennix.Tasking.UserStack
import Fennix.Memory.AreaGuards
import Fennix.Memory.BitmapRegion
import Fennix.Fs.UstarTree
import Fennix.Fs.UstarEntries
import Fennix.Fs.UstarMode
import Fennix.Driver.DeviceListing
import Fennix.Tasking.UserStackBounds
import Fennix.Tasking.ActionTable
import Fennix.Tasking.ThreadIds
import Fennix.Std.ForItr
import Fennix.Core.InterruptEvents
import Fennix.Core.Simd
import Fennix.Std.Mutex
import Fennix.Tasking.Sleep
import Fennix.Memory.CopyOnWrite
import Fennix.Tasking.ThreadLocal
import Fennix.Network.Arp
import Fennix.Network.Dhcp
import Fennix.Tty.PlainText
import Fennix.Driver.XhciRing
import Fennix.Driver.Mouse
import Fennix.Shell.Arguments
import Fennix.Std.MapCalls
