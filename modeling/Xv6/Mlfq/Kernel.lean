import Xv6.Lib.Chain

namespace Xv6.Mlfq

open Xv6.Lib

/-!
# MLFQ scheduler — the kernel model (`pj1/xv6-public/proc.c`, `trap.c`, `proc.h`)

The process table, the three level queues and the operations on them, on one CPU.  The
process table is a function on slots, a `struct proc *` is a slot or null, and the queues are
linked through the `next` field of the slots, exactly as in the source: a queue may be
cyclic or share nodes with another one, and a loop over such a queue does not end.

Every operation is one critical section of `ptable.lock`: it starts and ends in a state in
which the lock is free.  `sched()` switches to the scheduler, which finishes its round and
releases the lock (`schedReturn`); the next round of the scheduler picks and starts a process
(`schedule`).  A process that was dispatched goes on inside the kernel call it had given up
the CPU in; what it does next is its next operation.
-/

/-- `NPROC`, the number of process slots. -/
def NPROC : Nat := 64

instance : NeZero NPROC := ⟨by decide⟩

/-- A `struct proc *` that is not null: an index into `ptable.proc`. -/
abbrev Slot := Fin NPROC

/-- `enum procstate`. -/
inductive ProcState
  | UNUSED | EMBRYO | SLEEPING | RUNNABLE | RUNNING | ZOMBIE
  deriving DecidableEq, Repr

/-- The addresses processes sleep on: a process slot (`wait`), the tick counter
    (`sys_sleep`), or any other kernel object. -/
inductive Chan
  | proc (p : Slot) | ticks | other (n : Nat)
  deriving DecidableEq, Repr

/-- `struct proc`, without the fields the scheduler never reads (memory, files, context). -/
structure Proc where
  state : ProcState := .UNUSED
  pid : Int := 0
  parent : Option Slot := none
  chan : Option Chan := none
  killed : Bool := false
  level : Nat := 0
  priority : Int := 0
  timeQuantum : Nat := 0
  timeAllotment : Nat := 0
  lockScheduler : Bool := false
  alreadyEnqueued : Bool := false
  next : Option Slot := none
  deriving DecidableEq, Repr

/-- The scheduler's view of the machine: the globals of `proc.c`, the running process
    `c->proc`, the local variable `p` of `scheduler()` and, for every process inside `fork()`,
    its local variable `np`. -/
structure Kernel where
  proc : Slot → Proc
  levelQueue : Nat → Option Slot
  globalTick : Nat
  schedulerLocked : Bool
  nextpid : Int
  initproc : Option Slot
  cpuProc : Option Slot
  schedP : Option Slot
  np : Slot → Option Slot

/-- Why an operation does not come back: a loop over a queue that does not end, a `panic`, or
    a call that no process is there to make. -/
inductive Stop
  | diverges
  | panic (msg : String)
  | blocked
  deriving DecidableEq, Repr

namespace Kernel

/-- The `next` field of every slot. -/
def next (k : Kernel) (i : Slot) : Option Slot := (k.proc i).next

/-- Assign to the fields of one slot. -/
def setProc (k : Kernel) (i : Slot) (f : Proc → Proc) : Kernel :=
  { k with proc := Function.update k.proc i (f (k.proc i)) }

/-- `level_queue[l] = h`. -/
def setQueue (k : Kernel) (l : Nat) (h : Option Slot) : Kernel :=
  { k with levelQueue := Function.update k.levelQueue l h }

end Kernel

/-! ### Queue primitives -/

/-- `enqueue(p, &level_queue[l])`. -/
def enqueue (k : Kernel) (p : Slot) (l : Nat) : Except Stop Kernel :=
  if (k.proc p).alreadyEnqueued then .ok k
  else
    match k.levelQueue l with
    | none =>
      .ok ((k.setQueue l (some p)).setProc p fun q =>
        { q with next := none, alreadyEnqueued := true })
    | some tmp =>
      -- walk to the last element and link `p` behind it
      match walkEnd k.next NPROC tmp with
      | none => .error .diverges
      | some z =>
        .ok ((k.setProc z fun q => { q with next := some p }).setProc p fun q =>
          { q with next := none, alreadyEnqueued := true })

/-- `dequeue(&level_queue[l])`. -/
def dequeue (k : Kernel) (l : Nat) : Option Slot × Kernel :=
  match k.levelQueue l with
  | none => (none, k)
  | some p =>
    (some p, (k.setQueue l (k.proc p).next).setProc p fun q =>
      { q with next := none, alreadyEnqueued := false })

/-- `dequeue_specific(&level_queue[l], p)`. -/
def dequeueSpecific (k : Kernel) (l : Nat) (p : Slot) : Except Stop Kernel :=
  if (k.proc p).alreadyEnqueued = false then .ok k
  else
    match walkPrev k.next p NPROC none (k.levelQueue l) with
    | none => .error .diverges
    | some none => .ok k
    | some (some prev) =>
      let k' := match prev with
        | some y => k.setProc y fun q => { q with next := (k.proc p).next }
        | none => k.setQueue l (k.proc p).next
      .ok (k'.setProc p fun q => { q with next := none, alreadyEnqueued := false })

/-! ### The scheduler lock -/

/-- The password of `schedulerLock` and `schedulerUnlock`. -/
def schedPassword : Int := 2019041703

/-- The search of `schedulerUnlock` through the queues of the given levels: the first process
    with `lock_scheduler == 1`. -/
def findHolder (k : Kernel) : List Nat → Except Stop (Option Slot)
  | [] => .ok none
  | l :: ls =>
    match walkFind k.next (fun i => (k.proc i).lockScheduler) NPROC (k.levelQueue l) with
    | none => .error .diverges
    | some (some p) => .ok (some p)
    | some none => findHolder k ls

/-- `schedulerUnlock` takes a process that is not `RUNNABLE` out of its queue. -/
def dropNotRunnable (k : Kernel) (p : Slot) : Except Stop Kernel :=
  if (k.proc p).state ≠ .RUNNABLE then dequeueSpecific k (k.proc p).level p else .ok k

/-- `schedulerUnlock` puts a `RUNNABLE` or `RUNNING` process at the head of `level_queue[0]`. -/
def pushHead (k : Kernel) (p : Slot) : Kernel :=
  if (k.proc p).state = .RUNNABLE ∨ (k.proc p).state = .RUNNING then
    (k.setProc p fun q =>
      { q with next := k.levelQueue 0, level := 0, timeAllotment := 0, timeQuantum := 4,
               alreadyEnqueued := true }).setQueue 0 (some p)
  else k

/-- `scheduler_locked = 0; p->lock_scheduler = 0`. -/
def clearLock (k : Kernel) (p : Slot) : Kernel :=
  { k with schedulerLocked := false }.setProc p fun q => { q with lockScheduler := false }

/-- What `schedulerUnlock` does to the process it found. -/
def unlockFound (k : Kernel) (p : Slot) : Except Stop Kernel := do
  let k ← dropNotRunnable (clearLock k p) p
  .ok (pushHead k p)

/-- `schedulerUnlock(2019041703)`: the call with the right password. -/
def unlockHolder (k : Kernel) : Except Stop Kernel :=
  if k.schedulerLocked = false then .ok k
  else do
    match ← findHolder k [0, 1, 2] with
    | none => .ok k
    | some p => unlockFound k p

/-! ### `scheduler()` -/

/-- Level 2 selection: the first process of the list with the smallest priority. -/
def highPriority (k : Kernel) (xs : List Slot) : Option Slot :=
  xs.foldl (fun best p =>
    match best with
    | none => some p
    | some b => if (k.proc p).priority < (k.proc b).priority then some p else some b) none

/-- The first half of a scheduler round: the process that is going to run, taken out of its
    queue.  A locked scheduler keeps its old `p`. -/
def pick (k : Kernel) : Except Stop (Option Slot × Kernel) :=
  if k.schedP.isSome ∧ k.schedulerLocked then .ok (k.schedP, k)
  else
    match dequeue k 0 with
    | (some p, k) => .ok (some p, k)
    | (none, k) =>
      match dequeue k 1 with
      | (some p, k) => .ok (some p, k)
      | (none, k) =>
        match walkList k.next NPROC (k.levelQueue 2) with
        | none => .error .diverges
        | some xs =>
          match highPriority k xs with
          | none => .ok (none, k)
          | some p => do .ok (some p, ← dequeueSpecific k 2 p)

/-- One round of `scheduler()` up to the context switch.  The process it switches to goes on
    where it gave up the CPU: a `ZOMBIE` behind the `sched()` of `exit()`, where the kernel
    panics, a sleeper in `sleep()`, which clears `chan`. -/
def schedule (k : Kernel) : Except Stop Kernel :=
  if k.cpuProc.isSome then .error .blocked
  else do
    match ← pick k with
    | (none, k) => .ok { k with schedP := none }
    | (some p, k) =>
      if (k.proc p).state = .ZOMBIE then .error (.panic "zombie exit")
      else
        .ok ({ k with cpuProc := some p, schedP := some p }.setProc p fun q =>
          { q with state := .RUNNING, chan := none })

/-- Under the scheduler lock a process that changes its level is first taken out of its
    queue. -/
def leaveLevel (k : Kernel) (p : Slot) : Except Stop Kernel :=
  if k.schedulerLocked then dequeueSpecific k (k.proc p).level p else .ok k

/-- The change of level or priority of a process that has used up its time quantum. -/
def changeLevel (k : Kernel) (p : Slot) : Except Stop Kernel :=
  if (k.proc p).level < 2 ∧ (k.proc p).timeAllotment ≥ (k.proc p).timeQuantum then do
    let k ← leaveLevel k p
    .ok (k.setProc p fun q =>
      { q with level := q.level + 1, timeQuantum := 2 * (q.level + 1) + 4, timeAllotment := 0 })
  else if (k.proc p).level = 2 ∧ (k.proc p).timeAllotment ≥ (k.proc p).timeQuantum then
    .ok (k.setProc p fun q =>
      { q with priority := if q.priority - 1 ≥ 0 then q.priority - 1 else 0, timeAllotment := 0 })
  else .ok k

/-- The loop that appends the processes of a lower queue to the end `cur` of `level_queue[0]`. -/
def boostMove : Nat → Kernel → Option Slot → Option Slot → Except Stop (Kernel × Option Slot)
  | _, k, cur, none => .ok (k, cur)
  | 0, _, _, some _ => .error .diverges
  | n + 1, k, cur, some x =>
    let k := k.setProc x fun q =>
      { q with level := 0, priority := 3, timeAllotment := 0, timeQuantum := 4 }
    let k := match cur with
      | none => k.setQueue 0 (some x)
      | some c => k.setProc c fun q => { q with next := some x }
    boostMove n k (some x) (k.proc x).next

/-- The processes of `level_queue[0]` get priority 3 and a fresh allotment. -/
def boostFirst (k : Kernel) (xs : List Slot) : Kernel :=
  xs.foldl (fun k x => k.setProc x fun q => { q with priority := 3, timeAllotment := 0 }) k

/-- The part of priority boosting that moves every queued process to `level_queue[0]`. -/
def boostQueues (k : Kernel) : Except Stop Kernel :=
  match walkList k.next NPROC (k.levelQueue 0) with
  | none => .error .diverges
  | some xs => do
    let k := boostFirst k xs
    let (k, cur) ← boostMove NPROC k xs.getLast? (k.levelQueue 1)
    let k := k.setQueue 1 none
    let (k, _) ← boostMove NPROC k cur (k.levelQueue 2)
    .ok (k.setQueue 2 none)

/-- The boost gives up a scheduler lock. -/
def unlockBoosted (k : Kernel) : Except Stop Kernel :=
  if k.schedulerLocked then unlockHolder k else .ok k

/-- Priority boosting. -/
def boost (k : Kernel) : Except Stop Kernel := do
  let k ← boostQueues k
  let k ← unlockBoosted k
  .ok { k with globalTick := 0 }

/-- A holder of the scheduler lock that comes back not `RUNNABLE` gives it up. -/
def giveUpLock (k : Kernel) (p : Slot) : Except Stop Kernel :=
  if k.schedulerLocked ∧ (k.proc p).state ≠ .RUNNABLE then unlockHolder k else .ok k

/-- A process that comes back `RUNNABLE` is queued again. -/
def requeue (k : Kernel) (p : Slot) : Except Stop Kernel :=
  if (k.proc p).state = .RUNNABLE then enqueue k p (k.proc p).level else .ok k

/-- `scheduler()` keeps its local `p` only while it is locked. -/
def forgetP (k : Kernel) : Kernel := if k.schedulerLocked then k else { k with schedP := none }

/-- Boost when the global tick counter has reached 100. -/
def boostIfDue (k : Kernel) : Except Stop Kernel := if k.globalTick ≥ 100 then boost k else .ok k

/-- The second half of a scheduler round, from the return of `swtch` to the release of
    `ptable.lock`; `p` is the process that came back. -/
def schedReturn (k : Kernel) (p : Slot) : Except Stop Kernel := do
  let k ← giveUpLock { k with cpuProc := none } p
  let k ← changeLevel k p
  let k ← requeue k p
  boostIfDue (forgetP k)

/-! ### Process operations -/

/-- `p->state = RUNNABLE; enqueue(p, &level_queue[p->level])`, the pair of statements by which
    `userinit`, `fork`, `wakeup1` and `kill` make a process runnable. -/
def makeRunnable (k : Kernel) (p : Slot) : Except Stop Kernel :=
  enqueue (k.setProc p fun q => { q with state := .RUNNABLE }) p (k.proc p).level

/-- Wake one process if it sleeps on `chan`. -/
def wakeOne (chan : Option Chan) (k : Kernel) (p : Slot) : Except Stop Kernel :=
  if (k.proc p).state = .SLEEPING ∧ (k.proc p).chan = chan then makeRunnable k p else .ok k

/-- `wakeup1(chan)`: wake every process that sleeps on `chan`, in table order. -/
def wakeup1 (k : Kernel) (chan : Option Chan) : Except Stop Kernel :=
  (List.finRange NPROC).foldlM (wakeOne chan) k

/-- `sleep(chan, lk)` of the running process `p`. -/
def sleep (k : Kernel) (p : Slot) (chan : Chan) : Except Stop Kernel :=
  schedReturn (k.setProc p fun q => { q with chan := some chan, state := .SLEEPING }) p

/-- `yield()` of the running process `p`. -/
def yield (k : Kernel) (p : Slot) : Except Stop Kernel :=
  schedReturn (k.setProc p fun q => { q with state := .RUNNABLE }) p

/-- `kill(pid)`. -/
def kill (k : Kernel) (pid : Int) : Except Stop Kernel :=
  match (List.finRange NPROC).find? fun i => (k.proc i).pid = pid with
  | none => .ok k
  | some p =>
    let k := k.setProc p fun q => { q with killed := true }
    if (k.proc p).state = .SLEEPING then makeRunnable k p else .ok k

/-- `setPriority(pid, priority)`. -/
def setPriority (k : Kernel) (pid priority : Int) : Kernel :=
  if priority < 0 ∨ priority > 3 then k
  else
    match (List.finRange NPROC).find? fun i => (k.proc i).pid = pid with
    | none => k
    | some p => k.setProc p fun q => { q with priority := priority }

/-- `allocproc()` up to the release of `ptable.lock`: the first unused slot. -/
def allocproc (k : Kernel) : Option Slot × Kernel :=
  match (List.finRange NPROC).find? fun i => (k.proc i).state = .UNUSED with
  | none => (none, k)
  | some p =>
    (some p, { k with nextpid := k.nextpid + 1 }.setProc p fun q =>
      { q with state := .EMBRYO, pid := k.nextpid, level := 0, priority := 3, timeQuantum := 4,
               timeAllotment := 0, next := none })

/-- The first part of `fork()` by `p`: `allocproc()`, whose `kalloc` may fail. -/
def forkAlloc (k : Kernel) (p : Slot) (kallocOk : Bool) : Kernel :=
  match allocproc k with
  | (none, k) => k
  | (some c, k) =>
    if kallocOk then { k with np := Function.update k.np p (some c) }
    else k.setProc c fun q => { q with state := .UNUSED }

/-- The rest of `fork()` by `p`: `copyuvm`, which may fail, and the start of the child. -/
def forkFinish (k : Kernel) (p : Slot) (copyuvmOk : Bool) : Except Stop Kernel :=
  match k.np p with
  | none => .error .blocked
  | some c =>
    let k := { k with np := Function.update k.np p none }
    if copyuvmOk then makeRunnable (k.setProc c fun q => { q with parent := some p }) c
    else .ok (k.setProc c fun q => { q with state := .UNUSED })

/-- One iteration of the loop of `exit()` that passes abandoned children to init. -/
def reparentOne (p : Slot) (k : Kernel) (c : Slot) : Except Stop Kernel :=
  if (k.proc c).parent = some p then
    let k := k.setProc c fun q => { q with parent := k.initproc }
    if (k.proc c).state = .ZOMBIE then wakeup1 k (k.initproc.map .proc) else .ok k
  else .ok k

/-- `exit()` of the running process `p`, from the last `acquire(&ptable.lock)` on. -/
def exit (k : Kernel) (p : Slot) : Except Stop Kernel :=
  if k.initproc = some p then .error (.panic "init exiting")
  else do
    let k ← wakeup1 k ((k.proc p).parent.map .proc)
    let k ← (List.finRange NPROC).foldlM (reparentOne p) k
    schedReturn (k.setProc p fun q => { q with state := .ZOMBIE }) p

/-- One scan of `wait()` by `p`: reap the first zombie child, return without children or when
    killed, or sleep. -/
def wait (k : Kernel) (p : Slot) : Except Stop Kernel :=
  match (List.finRange NPROC).find? fun i =>
      (k.proc i).parent = some p ∧ (k.proc i).state = .ZOMBIE with
  | some c =>
    .ok (k.setProc c fun q => { q with pid := 0, parent := none, killed := false, state := .UNUSED })
  | none =>
    if (∀ i, (k.proc i).parent ≠ some p) ∨ (k.proc p).killed then .ok k
    else sleep k p (.proc p)

/-- `schedulerLock(password)` by the running process `p`. -/
def schedulerLock (k : Kernel) (p : Slot) (password : Int) : Except Stop Kernel :=
  if k.schedulerLocked then .ok k
  else if password = schedPassword then
    .ok ({ k with globalTick := 0, schedulerLocked := true }.setProc p fun q =>
      { q with lockScheduler := true })
  else exit k p

/-- `schedulerUnlock(password)` by the running process `p`. -/
def schedulerUnlock (k : Kernel) (p : Slot) (password : Int) : Except Stop Kernel :=
  if k.schedulerLocked = false then .ok k
  else if password = schedPassword then unlockHolder k
  else exit k p

/-- The timer interrupt.  A process that was killed and interrupted in user mode goes on into
    `exit()` instead of yielding. -/
def tick (k : Kernel) (user : Bool) : Except Stop Kernel := do
  let k ← wakeup1 { k with globalTick := k.globalTick + 1 } (some .ticks)
  match k.cpuProc with
  | none => .ok k
  | some p =>
    if (k.proc p).state = .RUNNING then
      let k := k.setProc p fun q => { q with timeAllotment := q.timeAllotment + 1 }
      if (k.proc p).killed ∧ user then .ok k else yield k p
    else .ok k

/-! ### Runs -/

/-- The steps of the machine: the calls of the running process, the interrupts, which also come
    while no process runs, and the rounds of the scheduler. -/
inductive Step
  | forkAlloc (kallocOk : Bool)
  | forkFinish (copyuvmOk : Bool)
  | exit
  | wait
  | sleep (chan : Chan)
  | wakeup (chan : Chan)
  | kill (pid : Int)
  | yield
  | setPriority (pid priority : Int)
  | schedulerLock (password : Int)
  | schedulerUnlock (password : Int)
  | tick (user : Bool)
  | schedule
  deriving DecidableEq, Repr

/-- A call that the running process makes. -/
def byProc (k : Kernel) (f : Slot → Except Stop Kernel) : Except Stop Kernel :=
  match k.cpuProc with
  | none => .error .blocked
  | some p => f p

/-- One step of the machine. -/
def step (k : Kernel) : Step → Except Stop Kernel
  | .forkAlloc ok => byProc k fun p => .ok (forkAlloc k p ok)
  | .forkFinish ok => byProc k fun p => forkFinish k p ok
  | .exit => byProc k fun p => exit k p
  | .wait => byProc k fun p => wait k p
  | .sleep chan => byProc k fun p => sleep k p chan
  | .wakeup chan => wakeup1 k (some chan)
  | .kill pid => byProc k fun _ => kill k pid
  | .yield => byProc k fun p => yield k p
  | .setPriority pid pr => byProc k fun _ => .ok (setPriority k pid pr)
  | .schedulerLock pw => byProc k fun p => schedulerLock k p pw
  | .schedulerUnlock pw => byProc k fun p => schedulerUnlock k p pw
  | .tick user => tick k user
  | .schedule => schedule k

/-- The machine before `userinit`: all globals are zero. -/
def boot : Kernel where
  proc := fun _ => {}
  levelQueue := fun _ => none
  globalTick := 0
  schedulerLocked := false
  nextpid := 1
  initproc := none
  cpuProc := none
  schedP := none
  np := fun _ => none

/-- `userinit()`: the first user process.  The kernel does not come up when its memory
    allocations fail. -/
def userinit (k : Kernel) : Except Stop Kernel :=
  match allocproc k with
  | (none, _) => .error (.panic "userinit: out of memory?")
  | (some p, k) => makeRunnable { k with initproc := some p } p

/-- The machine when the scheduler starts. -/
def Init (k : Kernel) : Prop := userinit boot = .ok k

end Xv6.Mlfq
