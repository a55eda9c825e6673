import Pros.Console.Delivery
import Pros.Console.Device
import Pros.Console.Screen
import Pros.Core.Cmdline
import Pros.Core.RingBuffer
import Pros.Fs.Mounts
import Pros.Fs.Ramfs.Growth
import Pros.Fs.Tar.Bounds
import Pros.Fs.Tar.Image
import Pros.Heap.Coalesced
import Pros.Heap.Data
import Pros.Heap.Preempt
import Pros.Pmm.FirstFit
import Pros.Proc.ElfShared
import Pros.Proc.TaskContext
import Pros.Proc.UserStackLayout
import Pros.Sched.RoundRobin
import Pros.Syscall.Confined
import Pros.User.Psh
import Pros.Vmm.Faults
import Pros.Vmm.KernelShare
import Pros.Vmm.Teardown
