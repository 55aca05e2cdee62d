import BasicOS.Lib.Bytes
import BasicOS.Lib.Bits
import BasicOS.Lib.Monitor
import BasicOS.Lib.Path
import BasicOS.Lib.Prog
import BasicOS.Lib.Run
import BasicOS.Lib.Chain
import BasicOS.Lib.Ring
import BasicOS.Lib.Slots
import BasicOS.Lib.Tally
import BasicOS.Log.Basic
import BasicOS.Log.Admission
import BasicOS.Log.Commit
import BasicOS.Log.Crash
import BasicOS.Log.Group
import BasicOS.Dev.Console
import BasicOS.Dev.Ide
import BasicOS.Dev.Transparent
import BasicOS.Fs.Dir
import BasicOS.Fs.Machine
import BasicOS.Fs.Reads
import BasicOS.Fs.Waits
import BasicOS.Fs.Entries
import BasicOS.Fs.Release
import BasicOS.Fs.Path
import BasicOS.Fs.Hold
import BasicOS.Fs.Walk
import BasicOS.Sys.Basic
import BasicOS.Sys.Boot
import BasicOS.Sys.Change
import BasicOS.Sys.Coherence
import BasicOS.Sys.Inodes
import BasicOS.Sys.Links
import BasicOS.Sys.Names
import BasicOS.Sys.Opens
import BasicOS.Sys.Refs
import BasicOS.Mkfs.Mount
import BasicOS.Mkfs.Roundtrip
import BasicOS.Sh.Agree
import BasicOS.Sh.Correct
import BasicOS.Spec.ByteFile
import BasicOS.Spec.DirMap
import BasicOS.Spec.LineDiscipline
import BasicOS.Pipe.Stream
import BasicOS.Pipe.Wakeup
import BasicOS.Proc.Effect
import BasicOS.Proc.Flag
import BasicOS.Proc.Space
import BasicOS.Proc.Size
import BasicOS.Proc.Kill
import BasicOS.Proc.OneCpu
import BasicOS.Proc.Reap
import BasicOS.Syscall.Stores
import BasicOS.Thread.Semaphore
import BasicOS.User.Malloc
import BasicOS.User.FreeList
import BasicOS.Sys.SharedWrite
import BasicOS.Spec.Leak
import BasicOS.Spec.Resolve
import BasicOS.Vm.Copyuvm
import BasicOS.User.Grep
import BasicOS.User.Memmove
import BasicOS.Dev.Mp
import BasicOS.Fs.Bitmap
import BasicOS.Proc.SleepLock
import BasicOS.Log.Cache
import BasicOS.Sys.Deadlock
import BasicOS.Sys.Effects
