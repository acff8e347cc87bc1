import Xv6.Lib.Chain

namespace Xv6.Thread

open Xv6.Lib

/-!
# Threads — the kernel model (`pj2/xv6-public/proc.c`, `exec.c`, `proc.h`)

A thread is a slot of the process table.  The threads of a process share the page directory of
their main thread, to which `main_thread` points, and are linked through `next_thread` behind
it.  Pointers are slots or null, and lists may be broken or cyclic: a loop over a cyclic list
does not end.

A step is a piece of a system call during which `ptable.lock` is held or no other process can
see a difference.  Between the pieces of one call other processes may run; `call` records where
each process is inside its call, with the local variables that are still used.

The loops of `exit`, `thread_exit` and `kill_for_exec` that close files hold no lock and sleep;
`walk` records where they are, and every file that they close is a step of its own.

Page directories, open files and directories are numbers.  A new directory is one that is not in use at the moment, as
`kalloc` gives it out: it may be one that was freed before, so that a pointer that was left in
a slot may become valid again.
-/

/-- `NPROC`, the number of process slots. -/
def NPROC : Nat := 64

instance : NeZero NPROC := ⟨by decide⟩

/-- `PGSIZE`. -/
def PGSIZE : Nat := 4096

/-- `NOFILE`, the number of open files of a process. -/
def NOFILE : Nat := 16

/-- The root directory. -/
def ROOTINO : Nat := 1

/-- `KERNBASE`, the end of user memory. -/
def KERNBASE : Nat := 0x80000000

/-- `PGROUNDUP(sz)`. -/
def pgRoundUp (sz : Nat) : Nat := (sz + PGSIZE - 1) / PGSIZE * PGSIZE

/-- A `struct proc *` that is not null: an index into `ptable.proc`. -/
abbrev Slot := Fin NPROC

/-- `enum procstate`. -/
inductive ProcState
  | UNUSED | EMBRYO | SLEEPING | RUNNABLE | RUNNING | ZOMBIE
  deriving DecidableEq, Repr

/-- The addresses processes sleep on: a process slot (`wait` and `thread_join`), the tick
    counter, or any other kernel object. -/
inductive Chan
  | proc (p : Slot) | ticks | other (n : Nat)
  deriving DecidableEq, Repr

/-- `struct proc`, without the name and what is on the stacks, except the value that the last
    system call has returned in `eax`, and the one that `thread_join` has stored in `*retval`. -/
structure Proc where
  sz : Nat := 0
  pgdir : Option Nat := none
  kstack : Bool := false
  state : ProcState := .UNUSED
  pid : Int := 0
  parent : Option Slot := none
  chan : Option Chan := none
  killed : Bool := false
  ofile : Fin NOFILE → Option Nat := fun _ => none
  cwd : Option Nat := none
  nextThread : Option Slot := none
  mainThread : Option Slot := none
  currentThread : Option Slot := none
  joinThread : Option Slot := none
  isThread : Bool := false
  tid : Nat := 0
  createNum : Nat := 0
  retval : Nat := 0
  memoryLimit : Nat := 0
  eax : Int := 0
  joinVal : Nat := 0
  deriving DecidableEq

/-- Where a process is inside a system call: in user mode or at the start of a call, in `fork`
    before and after `copyuvm`, in `thread_create` behind `allocproc`, in the loops of
    `thread_join` and `wait`, in `exec` behind the change of `pgdir`, in `sys_sbrk` behind the read
    of `sz`, in `exit`, or in `thread_exit`. -/
inductive Call
  | user
  | fork (np : Slot)
  | forkCopied (np : Slot)
  | create (mainThread np : Slot)
  | join (mainThread p : Slot)
  | wait
  | exec (oldpgdir : Option Nat)
  | sbrk (addr : Nat) (n : Int)
  | exit
  | threadExit (retval : Nat)
  deriving DecidableEq, Repr

/-- Inside `thread_join` and `wait` a process holds `ptable.lock` whenever it runs, and sleeps only
    in the loops of these calls. -/
def Call.waits : Call → Bool
  | .join _ _ | .wait => true
  | _ => false

/-- Where a process is in the loops that close files: at a thread `p` of the list, at the file
    `fd` of `p`, at the link of `p` to the next thread, at its own file `fd`, or at the end. -/
inductive Walk
  | idle
  | at (p : Slot)
  | visit (p : Slot) (fd : Nat)
  | behind (p : Slot)
  | own (fd : Nat)
  | done
  deriving DecidableEq, Repr

/-- The machine: the process table and the globals of `proc.c`, the page directories in use, the
    running process `c->proc`, and the place where the loop of `scheduler()` goes on. -/
structure Kernel where
  proc : Slot → Proc
  call : Slot → Call
  walk : Slot → Walk
  dirs : List Nat
  nextpid : Int
  initproc : Option Slot
  cpuProc : Option Slot
  scan : Nat
  ptableLocked : Bool

/-- Why a step does not lead on: a loop that does not end, a `panic`, a null pointer that is
    followed, or a step that cannot be made in the state. -/
inductive Stop
  | diverges
  | panic (msg : String)
  | nullDeref
  | blocked
  deriving DecidableEq, Repr

namespace Kernel

/-- The `next_thread` field of every slot. -/
def next (k : Kernel) (i : Slot) : Option Slot := (k.proc i).nextThread

/-- Assign to the fields of one slot. -/
def setProc (k : Kernel) (i : Slot) (f : Proc → Proc) : Kernel :=
  { k with proc := Function.update k.proc i (f (k.proc i)) }

/-- Process `i` goes on to another place of its call. -/
def setCall (k : Kernel) (i : Slot) (c : Call) : Kernel :=
  { k with call := Function.update k.call i c }

/-- Process `i` goes on to another place of the loops that close files. -/
def setWalk (k : Kernel) (i : Slot) (w : Walk) : Kernel :=
  { k with walk := Function.update k.walk i w }

/-- Process `i` returns from its call with the value `r`. -/
def ret (k : Kernel) (i : Slot) (r : Int) : Kernel :=
  (k.setProc i fun q => { q with eax := r }).setCall i .user

end Kernel

/-- `*p` for a pointer `p`. -/
def deref (p : Option Slot) : Except Stop Slot :=
  match p with
  | none => .error .nullDeref
  | some p => .ok p

/-! ### Memory -/

/-- `setupkvm()` has returned the directory `d`. -/
def newDir (k : Kernel) (d : Nat) : Except Stop Kernel :=
  if d ∈ k.dirs then .error .blocked else .ok { k with dirs := d :: k.dirs }

/-- `freevm(d)`. -/
def freevm (k : Kernel) (d : Option Nat) : Except Stop Kernel :=
  match d with
  | none => .error (.panic "freevm: no pgdir")
  | some d => .ok { k with dirs := k.dirs.filter fun e => e ≠ d }

/-- The result of `allocuvm(pgdir, oldsz, newsz)`; `kallocOk` tells whether there are pages. -/
def allocuvm (oldsz newsz : Nat) (kallocOk : Bool) : Nat :=
  if KERNBASE ≤ newsz then 0
  else if newsz < oldsz then oldsz
  else if kallocOk then newsz
  else 0

/-! ### Sleeping and waking -/

/-- Wake one process if it sleeps on `chan`. -/
def wakeOne (chan : Option Chan) (q : Proc) : Proc :=
  if q.state = .SLEEPING ∧ q.chan = chan then { q with state := .RUNNABLE } else q

/-- `wakeup1(chan)`. -/
def wakeup1 (k : Kernel) (chan : Option Chan) : Kernel :=
  { k with proc := fun i => wakeOne chan (k.proc i) }

/-- `sleep(chan, lk)` of the running process `c`. -/
def sleep (k : Kernel) (c : Slot) (chan : Chan) : Kernel :=
  { k with cpuProc := none }.setProc c fun q => { q with chan := some chan, state := .SLEEPING }

/-- `yield()` of the running process `c`. -/
def yield (k : Kernel) (c : Slot) : Kernel :=
  { k with cpuProc := none }.setProc c fun q => { q with state := .RUNNABLE }

/-- `kill(pid)` by `c`. -/
def kill (k : Kernel) (c : Slot) (pid : Int) : Kernel :=
  match (List.finRange NPROC).find? fun i => (k.proc i).pid = pid with
  | none => k.ret c (-1)
  | some p => (k.setProc p fun q =>
      { q with killed := true
               state := if q.state = .SLEEPING then .RUNNABLE else q.state }).ret c 0

/-! ### `scheduler()` -/

/-- The inner loop of `scheduler()`: the next `RUNNABLE` thread behind `cur`, going back to the
    main thread at the end of the list. -/
def pickThread (k : Kernel) (main : Slot) : Nat → Slot → Option Slot
  | 0, _ => none
  | n + 1, cur =>
    let t := (k.proc cur).nextThread.getD main
    if (k.proc t).state = .RUNNABLE then some t else pickThread k main n t

/-- One round of the loop of `scheduler()` up to the context switch, or the end of the loop. -/
def schedule (k : Kernel) : Except Stop Kernel :=
  if k.cpuProc.isSome then .error .blocked
  else
    match (List.finRange NPROC).find? fun i =>
        k.scan ≤ i.val ∧ (k.proc i).state = .RUNNABLE with
    | none => .ok { k with scan := 0 }
    | some p => do
      let m ← deref (k.proc p).mainThread
      let cur ← deref (k.proc m).currentThread
      match pickThread k m NPROC cur with
      | none => .error .diverges
      | some t =>
        .ok (({ k with cpuProc := some t, scan := p.val + 1 }.setProc m fun q =>
          { q with currentThread := some t }).setProc t fun q =>
          { q with state := .RUNNING, chan := none })

/-! ### `fork()` -/

/-- The first unused slot of the table. -/
def firstUnused (k : Kernel) : Option Slot :=
  (List.finRange NPROC).find? fun i => (k.proc i).state = .UNUSED

/-- The fields that `allocproc()` sets in the slot `p`. -/
def initSlot (k : Kernel) (p : Slot) : Kernel :=
  { k with nextpid := k.nextpid + 1 }.setProc p fun q =>
    { q with state := .EMBRYO, pid := k.nextpid, isThread := false, tid := 0, createNum := 0,
             currentThread := some p, mainThread := some p }

/-- `allocproc()` by `c`, which goes on with the call `next` in the new slot, or returns -1.  The
    `kalloc` of the kernel stack may fail. -/
def allocproc (k : Kernel) (c : Slot) (next : Slot → Call) (kallocOk : Bool) : Kernel :=
  match firstUnused k with
  | none => k.ret c (-1)
  | some p =>
    if kallocOk then
      ((initSlot k p).setProc p fun q => { q with kstack := true }).setCall c (next p)
    else
      ((initSlot k p).setProc p fun q => { q with kstack := false, state := .UNUSED }).ret c (-1)

/-- The files and the directory that `fork` and `thread_create` copy from `q` to a new slot `n`.
    Only entries that are in use are copied. -/
def copyFiles (q n : Proc) : Proc :=
  { n with ofile := fun fd => if (q.ofile fd).isSome then q.ofile fd else n.ofile fd
           cwd := q.cwd }

/-- `copyuvm` in the `fork()` of `c`, which returns a directory or fails, and the fields that are
    copied to the child.  When it fails, the null pointer stays in `pgdir`. -/
def forkCopy (k : Kernel) (c np : Slot) (dir : Option Nat) : Except Stop Kernel :=
  match dir with
  | none => .ok ((k.setProc np fun q =>
      { q with pgdir := none, kstack := false, state := .UNUSED }).ret c (-1))
  | some d => do
    let k ← newDir k d
    let m ← deref (k.proc c).mainThread
    .ok ((k.setProc np fun q => copyFiles (k.proc c)
      { q with pgdir := some d, sz := (k.proc m).sz, parent := some c }).setCall c (.forkCopied np))

/-- The end of the `fork()` of `c`. -/
def forkRun (k : Kernel) (c np : Slot) : Kernel :=
  (k.setProc np fun q => { q with state := .RUNNABLE }).ret c (k.proc np).pid

/-! ### `thread_create` -/

/-- The fields that `thread_create` sets before it allocates the stack. -/
def attach (k : Kernel) (c m np : Slot) : Kernel :=
  let k := k.setProc m fun q => { q with createNum := q.createNum + 1 }
  k.setProc np fun q =>
    { q with mainThread := some m, parent := (k.proc m).parent, pid := (k.proc m).pid,
             tid := (k.proc m).createNum, pgdir := (k.proc c).pgdir }

/-- The size of the process with a new stack. -/
def stackSize (k : Kernel) (m : Slot) (kallocOk : Bool) : Nat :=
  allocuvm (pgRoundUp (k.proc m).sz) (pgRoundUp (k.proc m).sz + 2 * PGSIZE) kallocOk

/-- Assign `sz` in the slots of a list. -/
def setSz (k : Kernel) (sz : Nat) (xs : List Slot) : Kernel :=
  xs.foldl (fun k p => k.setProc p fun q => { q with sz := sz }) k

/-- The limit check of `thread_create`, `growproc` and `exec`. -/
def overLimit (k : Kernel) (m : Slot) (sz : Nat) : Prop :=
  0 < (k.proc m).memoryLimit ∧ (k.proc m).memoryLimit < sz

instance (k : Kernel) (m : Slot) (sz : Nat) : Decidable (overLimit k m sz) :=
  inferInstanceAs (Decidable (_ ∧ _))

/-- `thread_create` copies the files, links the new thread behind the last one and starts it. -/
def linkThread (k : Kernel) (c np : Slot) (newsz : Nat) : Except Stop Kernel :=
  let k := k.setProc np fun q => copyFiles (k.proc c) q
  match walkEnd k.next NPROC c with
  | none => .error .diverges
  | some z => do
    let k := k.setProc z fun q => { q with nextThread := some np }
    let k := k.setProc np fun q =>
      { q with nextThread := none, state := .RUNNABLE, isThread := true, joinThread := some c }
    let m ← deref (k.proc c).mainThread
    match walkList k.next NPROC (some m) with
    | none => .error .diverges
    | some xs => .ok (setSz k newsz xs)

/-- `thread_create` by `c` from its own `acquire(&ptable.lock)` on.  If there is no memory for
    the stack, `copyout` fails and the call returns without releasing the lock. -/
def createFinish (k : Kernel) (c m np : Slot) (kallocOk : Bool) : Except Stop Kernel :=
  let newsz := stackSize k m kallocOk
  let k := attach k c m np
  if overLimit k m newsz then .ok (k.ret c (-1))
  else
    let k := (k.setProc np fun q => { q with sz := newsz }).setProc m fun q => { q with sz := newsz }
    if newsz = 0 then
      .ok { (k.setProc np fun q => { q with state := .UNUSED }).ret c (-1) with ptableLocked := true }
    else linkThread (k.ret c 0) c np newsz

/-! ### `exit`, `thread_exit` and `wait` -/

/-- `exit()` of `c` up to its first loop. -/
def exitBegin (k : Kernel) (c : Slot) : Except Stop Kernel :=
  if k.initproc = some c then .error (.panic "init exiting")
  else do
    let m ← deref (k.proc c).mainThread
    .ok ((k.setCall c .exit).setWalk c (.at m))

/-- `thread_exit(retval)` of `c` up to its first loop. -/
def threadExitBegin (k : Kernel) (c : Slot) (retval : Nat) : Except Stop Kernel :=
  if (k.proc c).mainThread = some c then exitBegin k c
  else .ok ((k.setCall c (.threadExit retval)).setWalk c (.own 0))

/-- Close the file `fd` of `p`, or give up its directory behind the last file. -/
def closeFile (k : Kernel) (p : Slot) (fd : Nat) : Except Stop Kernel :=
  if h : fd < NOFILE then
    .ok (k.setProc p fun q => { q with ofile := Function.update q.ofile ⟨fd, h⟩ none })
  else if (k.proc p).cwd = none then .error .nullDeref
  else .ok (k.setProc p fun q => { q with cwd := none })

/-- One step of `c` in the loops that close files.  `exit` and `kill_for_exec` pass over `c` and
    over zombies; `exit` and `thread_exit` close the files of `c` at the end. -/
def closeFiles (k : Kernel) (c : Slot) : Except Stop Kernel :=
  match k.walk c with
  | .idle | .done => .error .blocked
  | .at p =>
    .ok (k.setWalk c (if p ≠ c ∧ (k.proc p).state ≠ .ZOMBIE then .visit p 0 else .behind p))
  | .visit p fd => do
    let k ← closeFile k p fd
    .ok (k.setWalk c (if fd < NOFILE then .visit p (fd + 1) else .behind p))
  | .behind p =>
    match (k.proc p).nextThread with
    | some p' => .ok (k.setWalk c (.at p'))
    | none => .ok (k.setWalk c (if k.call c = .exit then .own 0 else .done))
  | .own fd => do
    let k ← closeFile k c fd
    .ok (k.setWalk c (if fd < NOFILE then .own (fd + 1) else .done))

/-- The release of a thread by `exit`, `thread_join` and `kill_for_exec`. -/
def freeThread (k : Kernel) (p : Slot) : Kernel :=
  ((k.setProc p fun q =>
    { q with kstack := false, parent := none, state := .UNUSED, tid := 0, joinThread := none,
             mainThread := none, pid := 0, nextThread := none, isThread := false }).setCall p .user
    ).setWalk p .idle

/-- The loop over a list of threads that releases those for which `cond` holds. -/
def freeThreads (cond : Kernel → Slot → Bool) : Nat → Kernel → Option Slot → Except Stop Kernel
  | _, k, none => .ok k
  | 0, _, some _ => .error .diverges
  | n + 1, k, some p =>
    let nextThread := (k.proc p).nextThread
    freeThreads cond n (if cond k p then freeThread k p else k) nextThread

/-- The test of `exit`: another thread of the process of `c`. -/
def otherThread (c : Slot) (k : Kernel) (p : Slot) : Bool :=
  (k.proc p).pid = (k.proc c).pid ∧ (k.proc p).tid ≠ (k.proc c).tid

/-- The loop of `exit` and `thread_exit` that passes abandoned children to init; a zombie among
    them wakes init. -/
def reparent (k : Kernel) (c : Slot) : Kernel :=
  let zombie := (List.finRange NPROC).any fun i =>
    (k.proc i).parent = some c ∧ (k.proc i).state = .ZOMBIE
  let k := { k with proc := fun i =>
    if (k.proc i).parent = some c then { k.proc i with parent := k.initproc } else k.proc i }
  if zombie then wakeup1 k (k.initproc.map .proc) else k

/-- The running process `c` becomes a zombie and gives up the CPU. -/
def zombie (k : Kernel) (c : Slot) (retval : Nat) : Kernel :=
  (({ k with cpuProc := none }.setProc c fun q =>
    { q with state := .ZOMBIE, retval := retval }).setCall c .user).setWalk c .idle

/-- `exit()` of `c` from its `acquire(&ptable.lock)` on. -/
def exit (k : Kernel) (c : Slot) : Except Stop Kernel := do
  let k ← freeThreads (otherThread c) (2 * NPROC) k (k.proc c).mainThread
  let k := wakeup1 k ((k.proc c).parent.map .proc)
  .ok (zombie (reparent k c) c (k.proc c).retval)

/-- `thread_exit(retval)` of `c` from its `acquire(&ptable.lock)` on. -/
def threadExit (k : Kernel) (c : Slot) (retval : Nat) : Kernel :=
  let k := wakeup1 k ((k.proc c).joinThread.map .proc)
  zombie (reparent k c) c retval

/-- The child that a scan of `wait()` by `c` finds first. -/
def zombieChild (k : Kernel) (c : Slot) : Option Slot :=
  (List.finRange NPROC).find? fun i => (k.proc i).parent = some c ∧ (k.proc i).state = .ZOMBIE

/-- `wait()` of `c` reaps its child `p`. -/
def reap (k : Kernel) (c p : Slot) : Except Stop Kernel := do
  let m ← deref (k.proc p).mainThread
  let k ← freevm k (k.proc m).pgdir
  .ok ((k.setProc p fun q =>
    { q with kstack := false, pid := 0, parent := none, killed := false, state := .UNUSED }).ret c
    (k.proc p).pid)

/-- One scan of `wait()` by `c`: reap a zombie child, return without children or when killed, or
    sleep. -/
def wait (k : Kernel) (c : Slot) : Except Stop Kernel :=
  match zombieChild k c with
  | some p => reap k c p
  | none =>
    if (∀ i, (k.proc i).parent ≠ some c) ∨ (k.proc c).killed then .ok (k.ret c (-1))
    else .ok (sleep (k.setCall c .wait) c (.proc c))

/-! ### `thread_join` -/

/-- The loop of `thread_join` that takes a thread `p` that is not the first one out of the list:
    it overwrites `next_thread` of the threads it passes, and stops before `p`. -/
def unlinkLoop (p : Slot) : Nat → Kernel → Slot → Except Stop (Kernel × Slot)
  | 0, _, _ => .error .diverges
  | n + 1, k, prev =>
    if (k.proc prev).nextThread = some p then .ok (k, prev)
    else do
      let k := k.setProc prev fun q => { q with nextThread := (k.proc p).nextThread }
      let prev ← deref (k.proc prev).nextThread
      unlinkLoop p n k prev

/-- `p->main_thread->current_thread` is moved off the thread `p` that is joined. -/
def moveCurrent (k : Kernel) (p prev : Slot) : Except Stop Kernel := do
  let m ← deref (k.proc p).mainThread
  if (k.proc m).currentThread = some p then
    .ok (k.setProc m fun q => { q with currentThread := some prev })
  else .ok k

/-- `thread_join` takes the thread `p` out of the list of the main thread `m`. -/
def unlinkThread (k : Kernel) (m p : Slot) : Except Stop Kernel :=
  if (k.proc m).nextThread = some p then
    moveCurrent (k.setProc m fun q => { q with nextThread := (k.proc p).nextThread }) p m
  else do
    let prev ← deref (k.proc m).nextThread
    let (k, prev) ← unlinkLoop p (2 * NPROC) k prev
    moveCurrent k p prev

/-- The loop of `thread_join` by `c`: sleep, or release the zombie `p`. -/
def joinCheck (k : Kernel) (c m p : Slot) : Except Stop Kernel :=
  if (k.proc p).state ≠ .ZOMBIE then .ok (sleep (k.setCall c (.join m p)) c (.proc c))
  else do
    let k ← unlinkThread (k.setProc c fun q => { q with joinVal := (k.proc p).retval }) m p
    .ok ((freeThread k p).ret c 0)

/-- `thread_join(tid)` by `c`. -/
def threadJoin (k : Kernel) (c : Slot) (tid : Nat) : Except Stop Kernel := do
  let m ← deref (k.proc c).mainThread
  match walkFind k.next (fun p => (k.proc p).tid = tid ∧ (k.proc p).joinThread = some c) NPROC
      (k.proc m).nextThread with
  | none => .error .diverges
  | some none => .ok (k.ret c (-1))
  | some (some p) => joinCheck k c m p

/-! ### `exec` -/

/-- `exec` by `c` changes to the new directory `d` and the size `sz`, which `allocuvm` has
    returned.  If the new image is larger than the memory limit, the call returns here. -/
def execCommit (k : Kernel) (c : Slot) (d sz : Nat) : Except Stop Kernel :=
  if KERNBASE ≤ sz then .error .blocked
  else do
    let k ← newDir k d
    let oldpgdir := (k.proc c).pgdir
    let k := k.setProc c fun q => { q with pgdir := some d, sz := sz }
    let m ← deref (k.proc c).mainThread
    if overLimit k m sz then .ok (k.ret c (-1))
    else .ok ((k.setCall c (.exec oldpgdir)).setWalk c (.at m))

/-- `kill_for_exec(c)` from its `acquire(&ptable.lock)` on. -/
def killForExec (k : Kernel) (c : Slot) : Except Stop Kernel := do
  let k ← freeThreads (fun _ p => p ≠ c) (2 * NPROC) k (k.proc c).mainThread
  .ok (k.setProc c fun q =>
    { q with mainThread := some c, isThread := false, tid := 0, currentThread := some c,
             createNum := 0, nextThread := none })

/-- The end of `exec` by `c`. -/
def execFinish (k : Kernel) (c : Slot) (oldpgdir : Option Nat) : Except Stop Kernel := do
  let k ← killForExec k c
  freevm ((k.ret c 0).setWalk c .idle) oldpgdir

/-! ### The size of a process -/

/-- The size that `growproc(n)` sets for the process of `m`, if it succeeds.  Sizes are `uint`;
    `deallocuvm` returns the smaller one, and 0 counts as a failure. -/
def newSize (k : Kernel) (m : Slot) (n : Int) (kallocOk : Bool) : Option Nat :=
  let sz := (k.proc m).sz
  let newsz := ((sz + n) % 2 ^ 32).toNat
  if 0 < n then
    if overLimit k m newsz then none
    else if allocuvm sz newsz kallocOk = 0 then none
    else some (allocuvm sz newsz kallocOk)
  else if n < 0 then
    if min sz newsz = 0 then none else some (min sz newsz)
  else some sz

/-- `growproc(n)` of `c`; there is no machine if it fails. -/
def growproc (k : Kernel) (c : Slot) (n : Int) (kallocOk : Bool) :
    Except Stop (Option Kernel) := do
  let m ← deref (k.proc c).mainThread
  match newSize k m n kallocOk with
  | none => .ok none
  | some sz =>
    match walkList k.next NPROC (some m) with
    | none => .error .diverges
    | some xs => .ok (some (setSz k sz xs))

/-- `sys_sbrk` of `c` up to the read of `sz`.  The argument is an `int`. -/
def sbrk (k : Kernel) (c : Slot) (n : Int) : Except Stop Kernel :=
  if -2 ^ 31 ≤ n ∧ n < 2 ^ 31 then .ok (k.setCall c (.sbrk (k.proc c).sz n))
  else .error .blocked

/-- The rest of `sys_sbrk` of `c` behind the read of `sz`. -/
def sbrkGrow (k : Kernel) (c : Slot) (addr : Nat) (n : Int) (kallocOk : Bool) :
    Except Stop Kernel := do
  match ← growproc k c n kallocOk with
  | none => .ok (k.ret c (-1))
  | some k => .ok (k.ret c addr)

/-- `setmemorylimit(pid, limit)`; there is no machine if it fails. -/
def setmemorylimit (k : Kernel) (pid limit : Int) : Except Stop (Option Kernel) :=
  if limit < 0 then .ok none
  else
    match (List.finRange NPROC).find? fun i =>
        (k.proc i).pid = pid ∧ (k.proc i).isThread = false with
    | none => .ok none
    | some p =>
      if (k.proc p).state = .UNUSED ∨ limit.toNat < (k.proc p).sz then .ok none
      else do
        let m ← deref (k.proc p).mainThread
        .ok (some (k.setProc m fun q => { q with memoryLimit := limit.toNat }))

/-! ### Files -/

/-- `fdalloc(f)` of `c`, as `open`, `dup` and `pipe` use it. -/
def fdalloc (k : Kernel) (c : Slot) (f : Nat) : Kernel :=
  match (List.finRange NOFILE).find? fun fd => ((k.proc c).ofile fd).isNone with
  | none => k.ret c (-1)
  | some fd => (k.setProc c fun q => { q with ofile := Function.update q.ofile fd (some f) }).ret c
      fd.val

/-- `close(fd)` of `c`. -/
def close (k : Kernel) (c : Slot) (fd : Fin NOFILE) : Kernel :=
  if ((k.proc c).ofile fd).isNone then k.ret c (-1)
  else (k.setProc c fun q => { q with ofile := Function.update q.ofile fd none }).ret c 0

/-- `chdir` of `c` to the directory `ip`. -/
def chdir (k : Kernel) (c : Slot) (ip : Nat) : Kernel :=
  (k.setProc c fun q => { q with cwd := some ip }).ret c 0

/-! ### Runs -/

/-- The steps of the machine: pieces of the calls of the running process, interrupts, and the
    rounds of the scheduler. -/
inductive Step
  | forkAlloc (kallocOk : Bool)
  | forkCopy (dir : Option Nat)
  | forkRun
  | createAlloc (kallocOk : Bool)
  | createFinish (kallocOk : Bool)
  | exitBegin
  | threadExitBegin (retval : Nat)
  | closeFiles
  | exit
  | threadExit
  | wait
  | threadJoin (tid : Nat)
  | joinCheck
  | execCommit (d sz : Nat)
  | execFinish
  | sbrk (n : Int)
  | growproc (kallocOk : Bool)
  | setmemorylimit (pid limit : Int)
  | kill (pid : Int)
  | fdalloc (f : Nat)
  | close (fd : Fin NOFILE)
  | chdir (ip : Nat)
  | sleep (chan : Chan)
  | yield
  | wakeup (chan : Chan)
  | schedule
  deriving DecidableEq, Repr

/-- A step of the running process. -/
def byProc (k : Kernel) (f : Slot → Except Stop Kernel) : Except Stop Kernel :=
  match k.cpuProc with
  | none => .error .blocked
  | some c => f c

/-- A system call of the running process. -/
def byUser (k : Kernel) (f : Slot → Except Stop Kernel) : Except Stop Kernel :=
  byProc k fun c => if k.call c = .user then f c else .error .blocked

/-- One step of the machine while `ptable.lock` is free. -/
def stepFree (k : Kernel) : Step → Except Stop Kernel
  | .forkAlloc ok => byUser k fun c => .ok (allocproc k c .fork ok)
  | .forkCopy dir => byProc k fun c =>
      match k.call c with
      | .fork np => forkCopy k c np dir
      | _ => .error .blocked
  | .forkRun => byProc k fun c =>
      match k.call c with
      | .forkCopied np => .ok (forkRun k c np)
      | _ => .error .blocked
  | .createAlloc ok => byUser k fun c => do
      let m ← deref (k.proc c).mainThread
      .ok (allocproc k c (.create m) ok)
  | .createFinish ok => byProc k fun c =>
      match k.call c with
      | .create m np => createFinish k c m np ok
      | _ => .error .blocked
  | .exitBegin => byUser k fun c => exitBegin k c
  | .threadExitBegin retval => byUser k fun c => threadExitBegin k c retval
  | .closeFiles => byProc k fun c => closeFiles k c
  | .exit => byProc k fun c =>
      if k.call c = .exit ∧ k.walk c = .done then exit k c else .error .blocked
  | .threadExit => byProc k fun c =>
      match k.call c with
      | .threadExit retval =>
        if k.walk c = .done then .ok (threadExit k c retval) else .error .blocked
      | _ => .error .blocked
  | .wait => byProc k fun c =>
      if k.call c = .user ∨ k.call c = .wait then wait k c else .error .blocked
  | .threadJoin tid => byUser k fun c => threadJoin k c tid
  | .joinCheck => byProc k fun c =>
      match k.call c with
      | .join m p => joinCheck k c m p
      | _ => .error .blocked
  | .execCommit d sz => byUser k fun c => execCommit k c d sz
  | .execFinish => byProc k fun c =>
      match k.call c with
      | .exec oldpgdir =>
        if k.walk c = .done then execFinish k c oldpgdir else .error .blocked
      | _ => .error .blocked
  | .sbrk n => byUser k fun c => sbrk k c n
  | .growproc ok => byProc k fun c =>
      match k.call c with
      | .sbrk addr n => sbrkGrow k c addr n ok
      | _ => .error .blocked
  | .setmemorylimit pid limit => byUser k fun c => do
      match ← setmemorylimit k pid limit with
      | none => .ok (k.ret c (-1))
      | some k => .ok (k.ret c 0)
  | .kill pid => byUser k fun c => .ok (kill k c pid)
  | .fdalloc f => byUser k fun c => .ok (fdalloc k c f)
  | .close fd => byUser k fun c => .ok (close k c fd)
  | .chdir ip => byUser k fun c => .ok (chdir k c ip)
  | .sleep chan => byProc k fun c =>
      if (k.call c).waits then .error .blocked else .ok (sleep k c chan)
  | .yield => byProc k fun c => .ok (yield k c)
  | .wakeup chan => .ok (wakeup1 k (some chan))
  | .schedule => schedule k

/-- One step of the machine.  A lock that was left held makes the next `acquire` panic. -/
def step (k : Kernel) (e : Step) : Except Stop Kernel :=
  if k.ptableLocked then .error (.panic "acquire") else stepFree k e

/-- The machine before `userinit`: all globals are zero. -/
def boot : Kernel where
  proc := fun _ => {}
  call := fun _ => .user
  walk := fun _ => .idle
  dirs := []
  nextpid := 1
  initproc := none
  cpuProc := none
  scan := 0
  ptableLocked := false

/-- `userinit()`, with the page directory `d` for the first process. -/
def userinit (k : Kernel) (d : Nat) : Except Stop Kernel :=
  match firstUnused k with
  | none => .error (.panic "userinit: out of memory?")
  | some p => do
    let k ← newDir { initSlot k p with initproc := some p } d
    .ok (k.setProc p fun q => { q with
      kstack := true, pgdir := some d, sz := PGSIZE, cwd := some ROOTINO, state := .RUNNABLE })

/-- The machine when the scheduler starts. -/
def Init (k : Kernel) : Prop := ∃ d, userinit boot d = .ok k

/-- The steps of `thread_exit(retval)` of a thread that is not interrupted. -/
def threadExitSteps (retval : Nat) : List Step :=
  .threadExitBegin retval :: List.replicate (NOFILE + 1) .closeFiles ++ [.threadExit]

/-- The steps of `exit()` of a process with one thread that is not interrupted. -/
def exitSteps : List Step :=
  .exitBegin :: List.replicate (NOFILE + 3) .closeFiles ++ [.exit]

/-- The steps up to the point where a child of the first process has created a second thread. -/
def twoThreads : List Step :=
  [.schedule, .forkAlloc true, .forkCopy (some 8), .forkRun, .wait, .schedule, .createAlloc true,
    .createFinish true]

end Xv6.Thread
