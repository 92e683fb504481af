import Xv6.Cache.Stats
import Xv6.Console.Indices
import Xv6.Grep.Matcher
import Xv6.Itable.Coherence
import Xv6.Log.Exhaustion
import Xv6.Log.Recovery
import Xv6.Pipe.Fifo
import Xv6.Process.ExitWait
import Xv6.Process.Kill
import Xv6.Process.Listing
import Xv6.Sched.Wakeups
import Xv6.Sched.Topfree
import Xv6.Umalloc.Malloc
import Xv6.Virtio.Protocol
import Xv6.Vm.Lazy
import Xv6.Vm.Ownership
import Xv6.Fs.DirMap
import Xv6.Fs.Reclaim
import Xv6.Mkfs.ReadBack
import Xv6.Filewrite.Chunks
import Xv6.Filewrite.Blocks
import Xv6.Sysfile.Exact
import Xv6.Sysfile.Open
import Xv6.Sh.Accept
import Xv6.Print.Itoa
