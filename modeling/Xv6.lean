import Xv6.Log.Durability
import Xv6.Log.GroupCommit
import Xv6.Log.Space
import Xv6.Log.Absorption
import Xv6.Fs.FileCalls
import Xv6.Fs.Calls
import Xv6.Fs.Deletion
import Xv6.Fs.FileIo
import Xv6.Fs.Reservation
import Xv6.Mkfs.Holes
import Xv6.Sched.Tickets
import Xv6.Sched.Order
import Xv6.Sched.Guarantee
import Xv6.Bio.Supply
import Xv6.Sched.Turns
import Xv6.Sched.Kin
import Xv6.Sched.Threads
import Xv6.Sched.Join
import Xv6.Sched.Shares
import Xv6.Sched.GroupPass
import Xv6.Sched.Dispatches
import Xv6.Sched.Levels
import Xv6.Sched.Decision
import Xv6.Sched.Demotion
import Xv6.Sched.RealLevels
import Xv6.Sched.Quantum
import Xv6.Sched.DeadPid
import Xv6.Vm.Recycle
import Xv6.Vm.Guard
import Xv6.Vm.Exhaustion
import Xv6.Vm.Arguments
import Xv6.Vm.Regions
import Xv6.Pipe.Wakeup
import Xv6.Fs.Effects
