import Xv6.Bio.Proofs.Coherence
import Xv6.Log.Proofs.CrashAtomic
import Xv6.Log.Proofs.Reservation
import Xv6.File.Proofs.Shared
import Xv6.File.Proofs.Console
import Xv6.Vm.Proofs.Segments
import Xv6.Umalloc.Proofs.Sbrk
import Xv6.Sh.Proofs.Cut
import Xv6.Grep.Proofs.Lines
import Xv6.Bio.Proofs.Ring
import Xv6.Dir.Proofs.Failing
import Xv6.Mkfs.Proofs.Lookup
import Xv6.Virtio.Proofs.Protocol
import Xv6.Proc.Proofs.Names
import Xv6.Proc.Proofs.Clean
import Xv6.Proc.Proofs.Reap
import Xv6.Proc.Proofs.Tree
import Xv6.Icache.Proofs.Reuse
import Xv6.Sv39.Proofs.CopyStr
import Xv6.Pipe.Proofs.Copy
import Xv6.Str.Proofs.Memmove
import Xv6.Spinlock.Proofs.Interrupts
import Xv6.Uart.Transmit
import Xv6.Dir.Proofs.Path
