import Xv6.Buf.Transparent
import Xv6.Console.Discipline
import Xv6.Exec.Segments
import Xv6.Fs.Files
import Xv6.Fs.Resolve
import Xv6.Kern.Fork
import Xv6.Lib.Hoare
import Xv6.Life.FreeSlot
import Xv6.Life.Pids
import Xv6.Life.Reap
import Xv6.Log.Admission
import Xv6.Log.Sync
import Xv6.Pipe.Asleep
import Xv6.Print.Integers
import Xv6.Proc.Deadlock
import Xv6.Sched.OneCpu
import Xv6.Sched.RoundRobin
import Xv6.Sleep.Kill
import Xv6.Sleep.Wakeup
import Xv6.Trap.Registers
import Xv6.User.Grep
import Xv6.User.Nice
import Xv6.User.Program
import Xv6.User.Parser
import Xv6.Vm.Strings
import Xv6.Vm.Grow
import Xv6.Vm.Map
