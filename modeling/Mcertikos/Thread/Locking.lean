/-
Spinlocks and sleep, over the whole kernel.

For every function that takes a spinlock, or calls one that does, its locking skeleton:
the calls and branches of the source in order, without the data.  A thread in user mode
holds no spinlock and enters the kernel by a trap; gates clear the interrupt flag, so an
interrupt comes in user mode or where `sys_produce` and `sys_consume` enable it.

* `sleeps_alone` — apart from the runs in which `sys_read` or `sys_write` gets to the file's
  inode, a thread that calls `thread_sleep(chan, lk)` holds `lk` and no other spinlock;
* `sysRead_sleeps` — `sys_read` sleeps on the disk with `buf_lock` held.

Design notes: `KERN_PANIC` never comes back.  `mark` stands at the two places of `file.c`
where `file_read` and `file_write` turn to the inode.  `cons_lk` and `serial_lk` are not
used on any of these paths.  The messages of `KERN_INFO` and `KERN_DEBUG` may be compiled
out.
-/
import Mcertikos.Lib.Skeleton
import Mcertikos.Fs.Processes

namespace Mcertikos

/-- The spinlocks of the kernel. -/
inductive Lock where
  | ide
  | buf
  | sched
  | log
  | inodeCache
  | ftable
  | bcache
  | debug
  | msg
  | mem
  | pt
  deriving DecidableEq, Repr

namespace Locking

open Skel

/-! ### Messages, memory and threads -/

/-- `debug_info` and `debug_normal`. -/
def debugInfo : Skel Lock := maybe (block [acquire .debug, release .debug])

/-- `debug_panic`. -/
def kernPanic : Skel Lock := block [acquire .debug, release .debug, halt]

/-- `if (...) KERN_PANIC(...)`. -/
def mayPanic : Skel Lock := maybe kernPanic

def palloc : Skel Lock := block [acquire .mem, release .mem]

def containerAlloc : Skel Lock := maybe palloc

/-- `alloc_page`; `map_page` allocates a page table if there is none. -/
def allocPage : Skel Lock :=
  block [acquire .pt, containerAlloc, maybe containerAlloc, release .pt]

/-- The loop of `pt_copyin`, `pt_copyout` and `pt_memset`. -/
def ptCopy : Skel Lock := loop (maybe allocPage)

def threadSpawn : Skel Lock := block [acquire .sched, release .sched]

def threadYield : Skel Lock := block [acquire .sched, release .sched]

def schedUpdate : Skel Lock :=
  block [acquire .sched, alt (block [release .sched, threadYield]) (release .sched)]

def threadWakeup : Skel Lock := block [acquire .sched, release .sched]

/-! ### The disk, the buffer cache and the log -/

def ideIntr : Skel Lock :=
  block [acquire .ide, alt (block [release .ide, debugInfo]) (block [threadWakeup, release .ide])]

def ideRw : Skel Lock :=
  block [mayPanic, mayPanic, mayPanic, acquire .ide, loop (sleep .ide), release .ide]

def bufcacheGet : Skel Lock :=
  block [acquire .bcache, loop (sleep .bcache), alt (release .bcache) kernPanic]

def bufcacheRead : Skel Lock := block [bufcacheGet, maybe ideRw]

def bufcacheWrite : Skel Lock := block [mayPanic, ideRw]

def bufcacheRelease : Skel Lock :=
  block [mayPanic, acquire .bcache, threadWakeup, release .bcache]

def readSuperblock : Skel Lock := block [bufcacheRead, bufcacheRelease]

def installTrans : Skel Lock :=
  loop (block [bufcacheRead, bufcacheRead, bufcacheWrite, bufcacheRelease, bufcacheRelease])

def readHead : Skel Lock := block [bufcacheRead, bufcacheRelease]

def writeHead : Skel Lock := block [bufcacheRead, bufcacheWrite, bufcacheRelease]

def recoverFromLog : Skel Lock := block [readHead, installTrans, writeHead]

def logInit : Skel Lock := block [mayPanic, readSuperblock, recoverFromLog]

def beginTrans : Skel Lock := block [acquire .log, loop (sleep .log), release .log]

def commitTrans : Skel Lock :=
  block [maybe (block [writeHead, installTrans, writeHead]),
    acquire .log, threadWakeup, release .log]

def logWrite : Skel Lock :=
  block [mayPanic, mayPanic, bufcacheRead, bufcacheWrite, bufcacheRelease]

/-! ### Blocks and inodes -/

def blockZero : Skel Lock := block [bufcacheRead, logWrite, bufcacheRelease]

def blockAlloc : Skel Lock :=
  block [readSuperblock, loop (block [bufcacheRead, bufcacheRelease]),
    maybe (block [bufcacheRead, logWrite, bufcacheRelease, blockZero])]

def blockFree : Skel Lock :=
  block [readSuperblock, bufcacheRead, mayPanic, logWrite, bufcacheRelease]

def inodeGet : Skel Lock :=
  block [acquire .inodeCache, alt (release .inodeCache) (block [mayPanic, release .inodeCache])]

def inodeAlloc : Skel Lock :=
  block [readSuperblock, loop (block [bufcacheRead, bufcacheRelease]),
    alt (block [bufcacheRead, logWrite, bufcacheRelease, inodeGet]) kernPanic]

def inodeUpdate : Skel Lock := block [bufcacheRead, logWrite, bufcacheRelease]

def inodeDup : Skel Lock := block [acquire .inodeCache, release .inodeCache]

def inodeLock : Skel Lock :=
  block [mayPanic, acquire .inodeCache, loop (sleep .inodeCache), release .inodeCache,
    maybe (block [bufcacheRead, bufcacheRelease, mayPanic])]

def inodeUnlock : Skel Lock :=
  block [mayPanic, acquire .inodeCache, threadWakeup, release .inodeCache]

def bmap : Skel Lock :=
  branch [maybe blockAlloc,
    block [maybe blockAlloc, bufcacheRead, maybe (block [blockAlloc, logWrite]), bufcacheRelease],
    kernPanic]

def inodeTrunc : Skel Lock :=
  block [loop (maybe blockFree),
    maybe (block [bufcacheRead, loop (maybe blockFree), bufcacheRelease, blockFree]),
    inodeUpdate]

def inodePut : Skel Lock :=
  block [acquire .inodeCache, maybe (block [mayPanic, release .inodeCache, inodeTrunc, inodeUpdate,
      acquire .inodeCache, threadWakeup]),
    release .inodeCache]

def inodeUnlockput : Skel Lock := block [inodeUnlock, inodePut]

def inodeRead : Skel Lock := maybe (loop (block [bmap, bufcacheRead, bufcacheRelease]))

def inodeWrite : Skel Lock :=
  maybe (block [loop (block [bmap, bufcacheRead, logWrite, bufcacheRelease]), maybe inodeUpdate])

/-! ### Directories and paths -/

def dirLookup : Skel Lock :=
  block [mayPanic, loop (block [inodeRead, mayPanic]),
    maybe (block [inodeRead, mayPanic, inodeGet])]

def dirLink : Skel Lock :=
  block [dirLookup, alt inodePut (block [loop (block [inodeRead, mayPanic]), inodeWrite, mayPanic])]

def namex : Skel Lock :=
  block [alt inodeGet inodeDup, loop (block [inodeLock, dirLookup, inodeUnlockput]),
    branch [block [inodeLock, inodeUnlockput], block [inodeLock, inodeUnlock],
      block [inodeLock, dirLookup, inodeUnlockput], inodePut, skip]]

def isdirempty : Skel Lock := loop (block [inodeRead, mayPanic])

/-! ### Files -/

def fileAlloc : Skel Lock :=
  block [acquire .ftable, alt (release .ftable) (release .ftable)]

def fileClose : Skel Lock :=
  block [acquire .ftable, mayPanic, alt (release .ftable)
      (block [release .ftable, maybe (block [beginTrans, inodePut, commitTrans])])]

def fileStat : Skel Lock := maybe (block [inodeLock, inodeUnlock])

def fileRead : Skel Lock :=
  branch [skip, block [mark, inodeLock, inodeRead, inodeUnlock], kernPanic]

def fileWrite : Skel Lock :=
  branch [skip,
    loop (block [mark, beginTrans, inodeLock, inodeWrite, inodeUnlock, commitTrans, mayPanic]),
    kernPanic]

/-! ### System calls -/

def sysRead : Skel Lock :=
  block [acquire .buf,
    branch [block [debugInfo, release .buf], block [debugInfo, debugInfo, release .buf],
      block [debugInfo, release .buf],
      block [fileRead, maybe ptCopy, release .buf]]]

def sysWrite : Skel Lock :=
  block [acquire .buf,
    branch [release .buf, release .buf, release .buf, block [ptCopy, fileWrite, release .buf]]]

def sysClose : Skel Lock := maybe fileClose

def sysFstat : Skel Lock := maybe (block [ptCopy, fileStat])

def sysLinkBad : Skel Lock := block [inodeLock, inodeUpdate, inodeUnlockput, commitTrans]

def sysLink : Skel Lock :=
  block [ptCopy, ptCopy, namex, maybe (block [beginTrans, inodeLock,
      alt (block [inodeUnlockput, commitTrans]) (block [inodeUpdate, inodeUnlock, namex,
          branch [sysLinkBad, block [inodeLock, maybe dirLink, inodeUnlockput, sysLinkBad],
            block [inodeLock, dirLink, inodeUnlockput, inodePut, commitTrans]]])])]

def sysUnlinkBad : Skel Lock := block [inodeUnlockput, commitTrans]

def sysUnlink : Skel Lock :=
  block [ptCopy, namex, maybe (block [beginTrans, inodeLock,
      branch [sysUnlinkBad, block [dirLookup, sysUnlinkBad],
        block [dirLookup, inodeLock, mayPanic, isdirempty, inodeUnlockput, sysUnlinkBad],
        block [dirLookup, inodeLock, mayPanic, maybe isdirempty, inodeWrite, mayPanic,
          maybe inodeUpdate, inodeUnlockput, inodeUpdate, inodeUnlockput, commitTrans]]])]

def create : Skel Lock :=
  block [namex, maybe (block [inodeLock, dirLookup,
      alt (block [inodeUnlockput, inodeLock, maybe inodeUnlockput])
        (block [inodeAlloc, mayPanic, inodeLock, inodeUpdate,
          maybe (block [inodeUpdate, dirLink, maybe dirLink, mayPanic]),
          dirLink, mayPanic, inodeUnlockput])])]

def sysOpen : Skel Lock :=
  block [maybe logInit, ptCopy, mayPanic, alt (block [beginTrans, create, commitTrans])
      (block [namex, maybe (block [inodeLock, maybe inodeUnlockput])]),
    maybe (block [fileAlloc, alt (block [maybe fileClose, inodeUnlockput]) inodeUnlock])]

def sysMkdir : Skel Lock :=
  block [ptCopy, beginTrans, create, alt commitTrans (block [inodeUnlockput, commitTrans])]

def sysChdir : Skel Lock :=
  block [ptCopy, namex,
    maybe (block [inodeLock, alt inodeUnlockput (block [inodeUnlock, inodePut])])]

def sysSyncSend : Skel Lock :=
  block [acquire .msg, threadWakeup, loop (sleep .msg), release .msg]

def sysSyncRecv : Skel Lock :=
  block [acquire .msg, loop (sleep .msg), loop (block [ptCopy, ptCopy]), threadWakeup, release .msg]

def sysPuts : Skel Lock := loop (block [ptCopy, maybe debugInfo])

/-- `elf_load` allocates and fills pages; `KERN_ASSERT` may panic. -/
def elfLoad : Skel Lock := block [mayPanic, loop (block [allocPage, ptCopy, ptCopy])]

def sysSpawn : Skel Lock := maybe (block [threadSpawn, alt debugInfo elfLoad])

/-! ### Traps -/

def interruptHandler : Skel Lock := branch [skip, schedUpdate, ideIntr]

/-- `sys_produce` and `sys_consume`, with interrupts enabled outside of the message. -/
def sysProduce : Skel Lock :=
  block [loop interruptHandler, loop (block [debugInfo, loop interruptHandler])]

/-- `sys_brk` prints messages; the buddy allocator and its mappings use no lock. -/
def sysBrk : Skel Lock := loop debugInfo

def exceptionHandler : Skel Lock :=
  alt (block [maybe (block [loop debugInfo, kernPanic]), allocPage, mayPanic])
    (block [loop debugInfo, kernPanic])

/-- `trap`, on its way from user mode and back. -/
def trap : Skel Lock :=
  branch [sysSyncSend, sysSyncRecv, sysPuts, sysSpawn, threadYield, sysProduce, sysBrk, sysOpen,
    sysClose, sysRead, sysWrite, sysMkdir, sysChdir, sysLink, sysUnlink, sysFstat,
    exceptionHandler, interruptHandler, debugInfo]

/-- A thread, from `proc_start_user` on. -/
def thread : Skel Lock := loop trap

/-! ### The result -/

theorem check_thread : thread.check ∅ = .goes ∅ := by decide +kernel

/-- **Sleeping alone.**  In every run of a thread in which no `sys_read` and no `sys_write`
gets to the file's inode, a call `thread_sleep(chan, lk)` happens with `lk` held and no
other spinlock. -/
theorem sleeps_alone {es : List (LockEvent Lock)} {b : Bool} (hr : thread.Runs es b)
    (hm : LockEvent.mark ∉ es) : ∀ pre lk post, es = pre ++ .sleep lk :: post →
      heldAfter ∅ pre = {lk} := by
  have hok : thread.check ∅ ≠ .bad := by
    rw [check_thread]
    nofun
  exact (hr.sound hm hok).1

/-- A receiver waits for a sender. -/
theorem runs_syncRecv : thread.Runs [.acquire .msg, .sleep .msg] false := by
  have hwait : (loop (sleep Lock.msg)).Runs [.sleep .msg] false := .loopMore .sleep .cut
  have hrecv : sysSyncRecv.Runs [.acquire .msg, .sleep .msg] false := .seq .acquire (.seqCut hwait)
  exact .loopCut (.right (.left hrecv))

theorem sleeps_alone_syncRecv : heldAfter ∅ [LockEvent.acquire Lock.msg] = {.msg} :=
  sleeps_alone runs_syncRecv (by decide) [.acquire .msg] .msg [] rfl

/-! ### Reading a file -/

theorem runs_bufcacheGet : bufcacheGet.Runs [.acquire .bcache, .release .bcache] true :=
  .seq .acquire (.seq .loopDone (.seq (.left .release) .skip))

theorem runs_mayPanic : mayPanic.Runs [] true := .right .skip

/-- A block that is not in the cache is read from the disk, and the caller sleeps. -/
theorem runs_bufcacheRead : bufcacheRead.Runs
    [.acquire .bcache, .release .bcache, .acquire .ide, .sleep .ide] false := by
  have hwait : (loop (sleep Lock.ide)).Runs [.sleep .ide] false := .loopMore .sleep .cut
  have hide : ideRw.Runs [.acquire .ide, .sleep .ide] false :=
    .seq runs_mayPanic (.seq runs_mayPanic (.seq runs_mayPanic (.seq .acquire (.seqCut hwait))))
  exact .seq runs_bufcacheGet (.seqCut (.left hide))

/-- `file_read` of an inode that is in the inode cache. -/
theorem runs_fileRead : fileRead.Runs
    [.mark, .acquire .inodeCache, .release .inodeCache, .acquire .bcache, .release .bcache,
      .acquire .ide, .sleep .ide] false := by
  have hlock : inodeLock.Runs [.acquire .inodeCache, .release .inodeCache] true :=
    .seq runs_mayPanic (.seq .acquire (.seq .loopDone (.seq .release (.seq (.right .skip) .skip))))
  have hbmap : bmap.Runs [] true := .left (.right .skip)
  have hread : inodeRead.Runs
      [.acquire .bcache, .release .bcache, .acquire .ide, .sleep .ide] false :=
    .left (.loopCut (.seq hbmap (.seqCut runs_bufcacheRead)))
  exact .right (.left (.seq .mark (.seq hlock (.seqCut hread))))

/-- What `sys_read` does before it sleeps. -/
def beforeSleep : List (LockEvent Lock) :=
  [.acquire .buf, .mark, .acquire .inodeCache, .release .inodeCache, .acquire .bcache,
    .release .bcache, .acquire .ide]

theorem runs_sysRead : thread.Runs (beforeSleep ++ [.sleep .ide]) false := by
  have hread : sysRead.Runs ([.acquire .buf] ++ (beforeSleep.tail ++ [.sleep .ide])) false :=
    .seq .acquire (.seqCut (.right (.right (.right (.left (.seqCut runs_fileRead))))))
  exact .loopCut (.right (.right (.right (.right (.right (.right (.right (.right (.right
    (.left hread))))))))))

end Locking

namespace Fs

namespace World

/-- Process 0 is in `sys_read` with `buf_lock` held, and about to read a block that is in no
valid buffer. -/
def readsDisk (x : World) : Bool :=
  match x.proc 0 with
  | some ⟨.read _ _ _, .step (.bread dev sector) _, _⟩ =>
    x.s.k.bufLock && (List.range nbuf).all fun b =>
      !((x.s.sys.c.buf b).valid && (x.s.sys.c.buf b).dev == dev &&
        (x.s.sys.c.buf b).sector == sector)
  | _ => false

/-- Process 0 opens `/f` and reads it. -/
def readRun : Option World :=
  (callSteps 0 (.open pathF 0) 54 (boot oneFile fun _ => 0)).bind (callSteps 0 (.read 0 vmUserlo 1) 12)

theorem readRun_readsDisk : readRun.any readsDisk = true := by decide +kernel

end World

end Fs

namespace Locking

open Skel Fs

/-- `sys_read` sleeps in `ide_rw` with `buf_lock` held: the thread's run, and a run of the
file system that gets to this point. -/
theorem sysRead_sleeps :
    (∃ pre, thread.Runs (pre ++ [.sleep .ide]) false ∧ heldAfter ∅ pre = {Lock.buf, Lock.ide}) ∧
      ∃ x : World, Relation.ReflTransGen World.Step (World.boot oneFile fun _ => 0) x ∧
        x.readsDisk = true := by
  refine ⟨⟨beforeSleep, runs_sysRead, by decide⟩, ?_⟩
  obtain ⟨x, h, hread⟩ := (Option.any_eq_true ..).mp World.readRun_readsDisk
  obtain ⟨x₁, h₁, h₂⟩ := Option.bind_eq_some_iff.mp h
  exact ⟨x, (World.run_of_callSteps (by decide) h₁).trans (World.run_of_callSteps (by decide) h₂),
    hread⟩

end Locking

end Mcertikos
