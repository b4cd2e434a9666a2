import Xv6.Buffer.Coherence
import Xv6.Buffer.Requests
import Xv6.Buffer.Stability
import Xv6.Console.Discipline
import Xv6.Disk.Driver
import Xv6.File.Permissions
import Xv6.File.Sharing
import Xv6.Fs.Mapping
import Xv6.Fs.Ownership
import Xv6.Log.Region
import Xv6.Log.Recovery
import Xv6.Log.Transactions
import Xv6.Process.Scheduling
import Xv6.Process.SleepLock
import Xv6.Process.Stacks
import Xv6.Process.Tree
import Xv6.Syscall.Arguments
import Xv6.Vm.Isolation
import Xv6.Vm.Break
import Xv6.Syscall.Vectors
import Xv6.Exec.Confinement
import Xv6.Exec.Contents
import Xv6.Exec.Stack
import Xv6.Exec.Valid
import Xv6.Exec.Copyout
import Xv6.Fs.Truncation
import Xv6.Fs.Allocation
import Xv6.Fs.Recording
import Xv6.File.Writing
import Xv6.File.Chunks
import Xv6.Fs.Balance
import Xv6.Vm.Leaking
import Xv6.Fs.Coherence
import Xv6.File.Transactions
import Xv6.Vm.Pages
import Xv6.Process.Heads
import Xv6.Console.Format
import Xv6.Disk.Completion
import Xv6.Library.Words
import Xv6.Trap.Switch
import Xv6.Process.Wakeup
import Xv6.Library.Line
import Xv6.Lock.Mcs
import Xv6.Shell.Lexing
import Xv6.Shell.Grammar
import Xv6.Shell.Parsing
import Xv6.Shell.Strings
import Xv6.Shell.RoundTrip
import Xv6.Library.Translation
import Xv6.Vm.FirstSpace
import Xv6.List.Refinement
import Xv6.Exec.Failing
import Xv6.Exec.Pushing
import Xv6.Exec.Bounds
import Xv6.Exec.Arguments
import Xv6.Fs.Search
import Xv6.Mkfs.Boot
import Xv6.Process.Fairness
import Xv6.Fs.Files
import Xv6.Fs.Capacity
import Xv6.Fs.Tree
import Xv6.Buffer.Recency
import Xv6.Vm.KernelSpace
import Xv6.File.Making
