import RustKernel.Memory.RefCounts
import RustKernel.Task.Identity
import RustKernel.Task.Preemption
import RustKernel.Drivers.Fat32.Failure
import RustKernel.Task.Zombies
import RustKernel.Kernel.Messages
import RustKernel.Drivers.Fat32.Entries
import RustKernel.Kernel.Lifecycles
import RustKernel.Task.Turns
import RustKernel.Drivers.E1000.Tx
import RustKernel.Drivers.E1000.Rx
import RustKernel.Task.Executor
import RustKernel.Virtio.Queue
import RustKernel.Drivers.Console
import RustKernel.Kernel.PerCpu
import RustKernel.Kernel.UserSlices
import RustKernel.Crypto.Digest
import RustKernel.Task.Programs
import RustKernel.Task.Tokens
import RustKernel.Fs.Image
import RustKernel.Ipc.Regions
import RustKernel.Gfx.Input
import RustKernel.Gfx.Present
import RustKernel.Drivers.Scanout
import RustKernel.Drivers.Fat32.Freeing
import RustKernel.Drivers.Fat32.ShortNames
import RustKernel.Drivers.Fat32.Paths
import RustKernel.Drivers.Fat32.Mount
import RustKernel.Drivers.Fat32.Vfat
import RustKernel.Fs.Initrd
import RustKernel.Ipc.Failures
import RustKernel.Ipc.Window
import RustKernel.Memory.Reach
import RustKernel.Persist.Codec
import RustKernel.Time.Sleep
import RustKernel.Users.Commands
import RustKernel.Shell
import RustKernel.Net.Procs
import RustKernel.Net.Dns
import RustKernel.Userland.Sh
