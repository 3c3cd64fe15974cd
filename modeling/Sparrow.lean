import Sparrow.Fs.Cache
import Sparrow.Fs.Blocks
import Sparrow.Userprog.Descriptors
import Sparrow.Fs.DirMap
import Sparrow.Fs.FileRead
import Sparrow.Fs.FileLimits
import Sparrow.Fs.FileRoundTrip
import Sparrow.Fs.FullDisk
import Sparrow.Fs.OpenDecision
import Sparrow.Fs.Lookup
import Sparrow.Fs.OpenFiles
import Sparrow.Userprog.SharedInodes
import Sparrow.Userprog.WaitExit
import Sparrow.Userprog.TaskView
import Sparrow.Fs.SyncRace
import Sparrow.Kernel.HeapRun
import Sparrow.Userprog.ForkHeap
import Sparrow.Kernel.PagingRun
import Sparrow.Userprog.LifeCycle
import Sparrow.Userprog.SingleWriter
import Sparrow.Userprog.Parents
import Sparrow.Thread.Sched
import Sparrow.Thread.Lock
import Sparrow.Lib.Ring
import Sparrow.Device.Channel
import Sparrow.Device.Transfer
import Sparrow.Device.Waiters
import Sparrow.Userprog.PipeRefs
import Sparrow.Userprog.ConsoleOutput
import Sparrow.Userprog.DescriptorCalls
import Sparrow.Userprog.Confinement
import Sparrow.Fs.DirSize
import Sparrow.Fs.Deletion
import Sparrow.Userprog.WorkingDir
import Sparrow.Fs.Formatting
import Sparrow.Kernel.Exhaustion
import Sparrow.Kernel.Pools
import Sparrow.Kernel.Malloc
import Sparrow.Fs.NameBytes
import Sparrow.Fs.Packed
import Sparrow.Fs.PathStrings
import Sparrow.Userprog.ForkCopy
import Sparrow.Shell.WashPath
import Sparrow.Shell.LexicalPath
import Sparrow.Thread.Pid
import Sparrow.Fs.InodeErase
import Sparrow.Fs.ReadDir
import Sparrow.Device.PartitionScan
import Sparrow.Fs.FilesysInit
import Sparrow.Fs.DirHandles
import Sparrow.Fs.BlockUses
import Sparrow.Userprog.FilePlaces
import Sparrow.Userprog.LoadImage
import Sparrow.Userprog.CwdPath
import Sparrow.Shell.MyShell
import Sparrow.Device.Keyboard
import Sparrow.Kernel.PutChar
import Sparrow.Kernel.PutInt
import Sparrow.Kernel.BitmapScan
import Sparrow.Thread.PadPrint
import Sparrow.Kernel.SelfMap
import Sparrow.Volume.FailedCalls
import Sparrow.Userprog.UserContext
import Sparrow.Thread.Fairness
import Sparrow.Volume.Run
