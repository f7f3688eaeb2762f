import Xv6.RunQueueAging
import Xv6.RwLock
import Xv6.Semaphore
import Xv6.Pipe
import Xv6.Console
import Xv6.Grep
import Xv6.Shell
import Xv6.Memmove
import Xv6.Backtrace
import Xv6.Asm
import Xv6.Kernel.Progress
import Xv6.Kernel.LifeCycle
import Xv6.Kernel.Wakeup
import Xv6.Kernel.Kill
import Xv6.Fs.LogSpace
import Xv6.Fs.LogAdmission
import Xv6.Fs.BcacheProof
import Xv6.Fs.ItableProof
import Xv6.Fs.SharedFile
import Xv6.Fs.CreateProof
import Xv6.Virtio.DiskProof
import Xv6.Mkfs.Agreement
import Xv6.Vm.UserCopy
import Xv6.Vm.UserAccess
import Xv6.Vm.Print
