import AxiomeOS.Pmm.Init
import AxiomeOS.Paging.Clone
import AxiomeOS.Net.Segments
import AxiomeOS.Net.Stream
import AxiomeOS.Vfs.Safety
import AxiomeOS.Init.Units
import AxiomeOS.Init.Restart
import AxiomeOS.Userspace.Malloc
import AxiomeOS.Kheap.Reuse
import AxiomeOS.Security.Roles
import AxiomeOS.Signal.Mask
import AxiomeOS.Time.Clock
import AxiomeOS.Boot.Mmap
import AxiomeOS.Ipc.Channel
import AxiomeOS.Devices.E1000
import AxiomeOS.Devices.Console
import AxiomeOS.Devices.Dri
import AxiomeOS.Devices.Nvme
import AxiomeOS.Devices.Tty
import AxiomeOS.Devices.Xhci
import AxiomeOS.Net.Dhcp
import AxiomeOS.Net.Dns
import AxiomeOS.Userspace.Readdir
import AxiomeOS.Vfs.Roots
import AxiomeOS.Security.Passwd
import AxiomeOS.Paging.UserString
import AxiomeOS.Sched.Sleep
import AxiomeOS.Sched.Preempt
import AxiomeOS.Ipc.Waiters
import AxiomeOS.Ipc.Shm
import AxiomeOS.Vfs.Attributes
import AxiomeOS.Vfs.Temporary
import AxiomeOS.Vfs.Ramfile
