import FogOS.Memmove
import FogOS.Log.Recovery
import FogOS.Log.Admission
import FogOS.Dir.LinkCounts
import FogOS.Dir.Dangling
import FogOS.Process.Kill
import FogOS.Process.Wait
import FogOS.Pipe.Fifo
import FogOS.Bio.Transparent
import FogOS.Sched.Interrupts
import FogOS.Sched.WaitExit
import FogOS.Sched.Killable
import FogOS.Itable.Orphans
import FogOS.Refs.Limits
import FogOS.Shell.Script
import FogOS.Shell.Pipes
import FogOS.Malloc.Break
import FogOS.Virtio.Protocol
import FogOS.Mkfs.Range
import FogOS.Console.Read
import FogOS.Fs.Short
import FogOS.Exec.Script
import FogOS.Fs.Reservation
import FogOS.Dir.Overflow
import FogOS.Grep.Match
