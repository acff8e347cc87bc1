import Xv6.Dev.Console
import Xv6.Dev.Pipe
import Xv6.Dev.Ide
import Xv6.File.Symlink
import Xv6.File.Process
import Xv6.File.Contents
import Xv6.File.Trunc
import Xv6.Fs.Nesting
import Xv6.Fs.Race
import Xv6.Fs.Waiters
import Xv6.Mlfq.Charge
import Xv6.Mlfq.Choice
import Xv6.Mlfq.Dispatch
import Xv6.Mlfq.Invariant
import Xv6.Mlfq.Preempt
import Xv6.Mlfq.Unlock
import Xv6.Shell.Line
import Xv6.Thread.Handshake
import Xv6.Thread.Inside
import Xv6.Thread.Join
import Xv6.Thread.Kill
import Xv6.Thread.Limit
import Xv6.Thread.LogOps
import Xv6.Thread.Parents
import Xv6.Thread.Ptable
import Xv6.Thread.Reap
import Xv6.Thread.Residue
import Xv6.Thread.RoundRobin
import Xv6.Thread.Sbrk
import Xv6.User.Program
import Xv6.Vm.Exec
import Xv6.Vm.NewThread
import Xv6.Vm.Proper
import Xv6.Vm.Start
