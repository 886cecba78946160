import Mcertikos.Lib.Memory
import Mcertikos.Lib.Ring
import Mcertikos.Lib.Dyadic
import Mcertikos.Lib.Hoare
import Mcertikos.Lib.Prog
import Mcertikos.Lib.Force
import Mcertikos.Lib.Chain
import Mcertikos.Lib.Skeleton
import Mcertikos.Lib.Budget
import Mcertikos.Lib.Splice
import Mcertikos.Pmm.AllocTable
import Mcertikos.Pmm.Mboot
import Mcertikos.Pmm.MbootSlots
import Mcertikos.Pmm.Container
import Mcertikos.Pmm.PmemInit
import Mcertikos.Pmm.Quota
import Mcertikos.Pmm.Buddy
import Mcertikos.Pmm.BuddyRuns
import Mcertikos.Pmm.BuddyUndo
import Mcertikos.Proc.Spawn
import Mcertikos.Proc.Brk
import Mcertikos.Proc.BrkEffects
import Mcertikos.Vmm.PageTable
import Mcertikos.Vmm.Isolation
import Mcertikos.Vmm.UserCopy
import Mcertikos.Vmm.CopyFrame
import Mcertikos.Vmm.Translation
import Mcertikos.Vmm.UserMem
import Mcertikos.Kern.StringOps
import Mcertikos.Proc.Elf
import Mcertikos.Ipc.Queue
import Mcertikos.Ipc.Compiled
import Mcertikos.Ipc.Sync
import Mcertikos.Ipc.Leak
import Mcertikos.Ipc.Copy
import Mcertikos.Fs.Disk
import Mcertikos.Fs.Bufcache
import Mcertikos.Fs.Log
import Mcertikos.Fs.Recovery
import Mcertikos.Fs.BufcacheThreads
import Mcertikos.Fs.ReadErrors
import Mcertikos.Fs.Layout
import Mcertikos.Fs.Kernel
import Mcertikos.Fs.Eval
import Mcertikos.Fs.Inode
import Mcertikos.Fs.Path
import Mcertikos.Fs.Sysfile
import Mcertikos.Fs.Processes
import Mcertikos.Fs.FirstUse
import Mcertikos.Fs.LogFlags
import Mcertikos.Fs.Ledger
import Mcertikos.Fs.Quiescent
import Mcertikos.Fs.Contents
import Mcertikos.Fs.View
import Mcertikos.Fs.Format
import Mcertikos.Fs.Blocks
import Mcertikos.Fs.Owner
import Mcertikos.Fs.Files
import Mcertikos.Fs.Abstract
import Mcertikos.Fs.Nodes
import Mcertikos.Fs.Dirs
import Mcertikos.Fs.Names
import Mcertikos.Fs.Mkfs
import Mcertikos.Fs.Refine
import Mcertikos.Fs.Resolve
import Mcertikos.Fs.Image
import Mcertikos.Fs.FileIo
import Mcertikos.Fs.Fstat
import Mcertikos.Fs.DirOps
import Mcertikos.Fs.UserPaths
import Mcertikos.Dev.Ide
import Mcertikos.Dev.Console
import Mcertikos.Dev.PcpuMp
import Mcertikos.Thread.Spinlock
import Mcertikos.Thread.TQueue
import Mcertikos.Thread.Sched
import Mcertikos.Thread.Sleep
import Mcertikos.Thread.Dispatch
import Mcertikos.Thread.Context
import Mcertikos.Thread.Locking
