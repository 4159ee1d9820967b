import Xv6Container.Proc.Isolation
import Xv6Container.Proc.Limit
import Xv6Container.Mem.Cycle
import Xv6Container.Fs.Quota
import Xv6Container.Pipe.Wakeup
import Xv6Container.Log.Reserve
import Xv6Container.Bio.Refine
import Xv6Container.Bio.Lru
import Xv6Container.Sched.Pause
import Xv6Container.Proc.Pid
import Xv6Container.Disk.Protocol
import Xv6Container.Sync.Wakeup
import Xv6Container.Resume.Survive
import Xv6Container.Tree.Reap
import Xv6Container.Stop.Release
import Xv6Container.Proc.Kill
import Xv6Container.Console.Route
import Xv6Container.Proc.Leftover
import Xv6Container.Fs.Cinit
import Xv6Container.Fork.Refused
import Xv6Container.Mem.Copy
import Xv6Container.Mem.PipeCall
import Xv6Container.Exec.Leak
import Xv6Container.File.Shared
import Xv6Container.Pipe.Honest
import Xv6Container.Fs.DotDot
import Xv6Container.Proc.Cinfo
import Xv6Container.Fs.Path
import Xv6Container.Grep.Lines
