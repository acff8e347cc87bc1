import Xv6.Lib.Transition
import Xv6.Lib.Wp
import Xv6.Thread.Kernel

namespace Xv6.Thread

open Xv6.Lib

/-!
# Threads — where `ptable.lock` is taken and released

The routines of `proc.c` that take `ptable.lock`, with every `acquire` and `release` of the code on
one processor, and all their exits.  While a routine sleeps, or between two of its critical
sections, other processes run; what the table is then is an argument.

* `Locked.growproc`, … — the routines;
* `PtableCall.Releases` — the calls that release the lock;
* `ptable_released` — exactly these calls return with the lock free.
-/

/-- Why a routine does not return: a panic of `spinlock.c` or of `sched`, or something else. -/
inductive Halt
  | acquire
  | release
  | sched
  | other (e : Stop)
  deriving DecidableEq

/-- Code that runs with the process table. -/
abbrev PtableM := EStateM Halt Kernel

/-- `acquire(&ptable.lock)`; the lock is never free if the processor holds it already. -/
def acquire : PtableM Unit := do
  let k ← get
  if k.ptableLocked then throw .acquire else set { k with ptableLocked := true }

/-- `release(&ptable.lock)`. -/
def release : PtableM Unit := do
  let k ← get
  if k.ptableLocked then set { k with ptableLocked := false } else throw .release

/-- `sleep(c, &ptable.lock)`.  `sched` gives the lock to the next process, and `c` goes on, with the
    lock, when the table is `w`. -/
def sleepUntil (w : Kernel) : PtableM Unit := do
  let k ← get
  if k.ptableLocked then set { w with ptableLocked := true } else throw .sched

/-- Other processes run, and then the table is `w`.  They cannot run while the lock is held. -/
def others (w : Kernel) : PtableM Unit := do
  let k ← get
  if k.ptableLocked then throw .sched else set { w with ptableLocked := false }

/-- A change of the table. -/
def change (f : Kernel → Except Stop Kernel) : PtableM Unit := fun k =>
  match f k with
  | .ok k' => .ok () k'
  | .error e => .error (.other e) k

/-- A value that is read from the table. -/
def value {α : Type} (f : Kernel → Except Stop α) : PtableM α := fun k =>
  match f k with
  | .ok a => .ok a k
  | .error e => .error (.other e) k

/-! ### The routines -/

namespace Locked

/-- The end of `growproc`: all threads get the size. -/
def shareSz (m : Slot) (sz : Nat) : PtableM Int := do
  change fun k =>
    match walkList k.next NPROC (some m) with
    | none => .error .diverges
    | some xs => .ok (setSz k sz xs)
  release
  pure 0

/-- Return -1. -/
def fail : PtableM Int := do
  release
  pure (-1)

/-- `growproc(n)` of `c`. -/
def growproc (c : Slot) (n : Int) (kallocOk : Bool) : PtableM Int := do
  acquire
  let m ← value fun k => deref (k.proc c).mainThread
  let k ← get
  let sz := (k.proc m).sz
  let newsz := ((sz + n) % 2 ^ 32).toNat
  if 0 < n then
    if overLimit k m newsz then fail
    else if allocuvm sz newsz kallocOk = 0 then fail
    else shareSz m (allocuvm sz newsz kallocOk)
  else if n < 0 then
    if min sz newsz = 0 then fail else shareSz m (min sz newsz)
  else shareSz m sz

/-- `kill(pid)`. -/
def kill (pid : Int) : PtableM Int := do
  acquire
  let k ← get
  match (List.finRange NPROC).find? fun i => (k.proc i).pid = pid with
  | none => fail
  | some p => do
    set (k.setProc p fun q =>
      { q with killed := true, state := if q.state = .SLEEPING then .RUNNABLE else q.state })
    release
    pure 0

/-- One scan of `wait()` of `c`, which sleeps and does `again`, if it does not return. -/
def waitScan (c : Slot) (again : PtableM Int) : PtableM Int := do
  let k ← get
  match zombieChild k c with
  | some p => do
    change fun k => reap k c p
    release
    pure (k.proc p).pid
  | none => if (∀ i, (k.proc i).parent ≠ some c) ∨ (k.proc c).killed then fail else again

/-- The loop of `wait()` of `c`, which wakes up in the given tables. -/
def waitLoop (c : Slot) : List Kernel → PtableM Int
  | [] => waitScan c (throw (.other .blocked))
  | w :: ws => waitScan c do
    sleepUntil w
    waitLoop c ws

/-- `wait()` of `c`. -/
def wait (c : Slot) (ws : List Kernel) : PtableM Int := do
  acquire
  waitLoop c ws

/-- `allocproc()`. -/
def allocproc (kallocOk : Bool) : PtableM (Option Slot) := do
  acquire
  let k ← get
  match firstUnused k with
  | none => do
    release
    pure none
  | some p => do
    set (initSlot k p)
    release
    let k ← get
    if kallocOk then do
      set (k.setProc p fun q => { q with kstack := true })
      pure (some p)
    else do
      set (k.setProc p fun q => { q with kstack := false, state := .UNUSED })
      pure none

/-- The part of `thread_create` by `c` behind `allocuvm`, which has returned `newsz`. -/
def startThread (c m np : Slot) (newsz : Nat) : PtableM Int := do
  let k ← get
  if overLimit k m newsz then fail
  else do
    set ((k.setProc np fun q => { q with sz := newsz }).setProc m fun q => { q with sz := newsz })
    if newsz = 0 then do
      -- `copyout` fails
      change fun k => .ok (k.setProc np fun q => { q with state := .UNUSED })
      pure (-1)
    else do
      change fun k => linkThread k c np newsz
      release
      pure 0

/-- `thread_create` by `c`; the table is `w` when it takes the lock. -/
def threadCreate (c : Slot) (kallocOk : Bool) (w : Kernel) (stackOk : Bool) : PtableM Int := do
  let m ← value fun k => deref (k.proc c).mainThread
  match ← allocproc kallocOk with
  | none => pure (-1)
  | some np => do
    others w
    acquire
    let k ← get
    set (attach k c m np)
    startThread c m np (stackSize k m stackOk)

/-- One round of the loop of `thread_join` of `c`, which sleeps and does `again` while `p` runs. -/
def joinRound (c m p : Slot) (again : PtableM Int) : PtableM Int := do
  let k ← get
  if (k.proc p).state ≠ .ZOMBIE then again
  else do
    change fun k => unlinkThread (k.setProc c fun q => { q with joinVal := (k.proc p).retval }) m p
    change fun k => .ok (freeThread k p)
    release
    pure 0

/-- The loop of `thread_join` of `c`, which wakes up in the given tables. -/
def joinLoop (c m p : Slot) : List Kernel → PtableM Int
  | [] => joinRound c m p (throw (.other .blocked))
  | w :: ws => joinRound c m p do
    sleepUntil w
    joinLoop c m p ws

/-- `thread_join(tid)` of `c`. -/
def threadJoin (c : Slot) (tid : Nat) (ws : List Kernel) : PtableM Int := do
  let m ← value fun k => deref (k.proc c).mainThread
  acquire
  let k ← get
  match walkFind k.next (fun p => (k.proc p).tid = tid ∧ (k.proc p).joinThread = some c) NPROC
      (k.proc m).nextThread with
  | none => throw (.other .diverges)
  | some none => fail
  | some (some p) => joinLoop c m p ws

/-- `kill_for_exec(c)`; the table is `w` behind the loop that closes files. -/
def killForExec (c : Slot) (w : Kernel) : PtableM Unit := do
  others w
  acquire
  change fun k => Thread.killForExec k c
  release

/-- `setmemorylimit(pid, limit)`. -/
def setmemorylimit (pid limit : Int) : PtableM Int := do
  if limit < 0 then pure (-1)
  else do
    acquire
    let k ← get
    match (List.finRange NPROC).find? fun i =>
        (k.proc i).pid = pid ∧ (k.proc i).isThread = false with
    | none => fail
    | some p =>
      if (k.proc p).state = .UNUSED then fail
      else if limit.toNat < (k.proc p).sz then fail
      else do
        let m ← value fun k => deref (k.proc p).mainThread
        set (k.setProc m fun q => { q with memoryLimit := limit.toNat })
        release
        pure 0

/-- The slot that the loop of `processinfo` goes to. -/
def indexSlot (index : Int) : Slot := Fin.ofNat NPROC index.toNat

/-- What `processinfo` stores, without the name. -/
structure Info where
  pid : Int
  stackPages : Nat
  allocatedMemory : Nat
  memoryLimit : Nat

/-- `processinfo(index, …)`: the result, and what has been stored. -/
def processinfo (index : Int) : PtableM (Int × Option Info) := do
  if NPROC ≤ index then pure (-1, none)
  else do
    acquire
    let k ← get
    let p := indexSlot index
    if (k.proc p).isThread then pure (0, none)
    else if (k.proc p).state ≠ .UNUSED ∧ (k.proc p).killed = false then do
      let m ← value fun k => deref (k.proc p).mainThread
      release
      pure (1, some ⟨(k.proc p).pid, (k.proc p).sz / PGSIZE, (k.proc p).sz, (k.proc m).memoryLimit⟩)
    else do
      release
      pure (-1, none)

end Locked

/-! ### Rules -/

section Rules

variable {α : Type} {k : Kernel} {E : Halt → Kernel → Prop}

theorem wp_acquire {Q : Unit → Kernel → Prop} (h : k.ptableLocked = false) :
    wp acquire Q E k ↔ Q () { k with ptableLocked := true } := by
  rw [acquire, wp_bind, wp_get, h]
  rfl

theorem wp_release {Q : Unit → Kernel → Prop} (h : k.ptableLocked = true) :
    wp release Q E k ↔ Q () { k with ptableLocked := false } := by
  rw [release, wp_bind, wp_get, h]
  rfl

theorem wp_sleepUntil {Q : Unit → Kernel → Prop} {w : Kernel} (h : k.ptableLocked = true) :
    wp (sleepUntil w) Q E k ↔ Q () { w with ptableLocked := true } := by
  rw [sleepUntil, wp_bind, wp_get, h]
  rfl

theorem wp_others {Q : Unit → Kernel → Prop} {w : Kernel} (h : k.ptableLocked = false) :
    wp (others w) Q E k ↔ Q () { w with ptableLocked := false } := by
  rw [others, wp_bind, wp_get, h]
  rfl

/-- A change of the table that does not touch the lock. -/
theorem wp_change {Q : Unit → Kernel → Prop} {f : Kernel → Except Stop Kernel} {l : Bool}
    (hf : ∀ k', f k = .ok k' → k'.ptableLocked = k.ptableLocked) (h : k.ptableLocked = l)
    (hE : ∀ e k, E (.other e) k) (hQ : ∀ k', k'.ptableLocked = l → Q () k') :
    wp (change f) Q E k := by
  rw [wp, change]
  cases hrun : f k with
  | ok k' => exact hQ k' ((hf k' hrun).trans h)
  | error e => exact hE e k

theorem wp_value {Q : α → Kernel → Prop} {f : Kernel → Except Stop α} (hE : ∀ e k, E (.other e) k)
    (hQ : ∀ a, f k = .ok a → Q a k) : wp (value f) Q E k := by
  rw [wp, value]
  cases hrun : f k with
  | ok a => exact hQ a hrun
  | error e => exact hE e k

end Rules

/-! ### Changes that do not touch the lock -/

section Changes

variable {k k' : Kernel} {c m p prev : Slot}

theorem locked_setProc {f : Proc → Proc} : (k.setProc p f).ptableLocked = k.ptableLocked := rfl

theorem locked_attach {np : Slot} : (attach k c m np).ptableLocked = k.ptableLocked := rfl

theorem locked_setSz {sz : Nat} (xs : List Slot) : (setSz k sz xs).ptableLocked = k.ptableLocked := by
  induction xs generalizing k with
  | nil => rfl
  | cons x xs ih => exact ih

theorem locked_reap (hs : reap k c p = .ok k') : k'.ptableLocked = k.ptableLocked := by
  obtain ⟨m, -, hs⟩ := bind_eq_ok.mp hs
  obtain ⟨k₁, hfree, hs⟩ := bind_eq_ok.mp hs
  unfold freevm at hfree
  split at hfree
  · cases hfree
  · cases hfree
    cases hs
    rfl

theorem locked_linkThread {np : Slot} {sz : Nat} (hs : linkThread k c np sz = .ok k') :
    k'.ptableLocked = k.ptableLocked := by
  unfold linkThread at hs
  dsimp only at hs
  split at hs
  · cases hs
  · obtain ⟨m, -, hs⟩ := bind_eq_ok.mp hs
    split at hs
    · cases hs
    · cases hs
      rw [locked_setSz]
      rfl

theorem locked_moveCurrent (hs : moveCurrent k p prev = .ok k') :
    k'.ptableLocked = k.ptableLocked := by
  obtain ⟨m, -, hs⟩ := bind_eq_ok.mp hs
  split at hs
  · cases hs
    rfl
  · cases hs
    rfl

theorem locked_unlinkLoop {n : Nat} {last : Slot} (hs : unlinkLoop p n k prev = .ok (k', last)) :
    k'.ptableLocked = k.ptableLocked := by
  induction n generalizing k prev with
  | zero => cases hs
  | succ n ih =>
    rw [unlinkLoop] at hs
    split at hs
    · cases hs
      rfl
    · obtain ⟨next, -, hs⟩ := bind_eq_ok.mp hs
      exact (ih hs).trans rfl

theorem locked_unlinkThread (hs : unlinkThread k m p = .ok k') :
    k'.ptableLocked = k.ptableLocked := by
  rw [unlinkThread] at hs
  split at hs
  · exact (locked_moveCurrent hs).trans rfl
  · obtain ⟨first, -, hs⟩ := bind_eq_ok.mp hs
    obtain ⟨⟨k₁, last⟩, hloop, hs⟩ := bind_eq_ok.mp hs
    rw [locked_moveCurrent hs, locked_unlinkLoop hloop]

theorem locked_freeThreads {cond : Kernel → Slot → Bool} {n : Nat} {h : Option Slot}
    (hs : freeThreads cond n k h = .ok k') : k'.ptableLocked = k.ptableLocked := by
  induction n generalizing k h with
  | zero =>
    cases h with
    | none => cases hs; rfl
    | some p => cases hs
  | succ n ih =>
    cases h with
    | none => cases hs; rfl
    | some p =>
      rw [freeThreads] at hs
      rw [ih hs]
      split <;> rfl

theorem locked_killForExec (hs : killForExec k c = .ok k') : k'.ptableLocked = k.ptableLocked := by
  obtain ⟨k₁, hfree, hs⟩ := bind_eq_ok.mp hs
  cases hs
  exact (locked_freeThreads hfree :)

end Changes

/-! ### The routines and the lock -/

section Specs

variable {α : Type} {k : Kernel} {c m p : Slot}

/-- From a table with the lock free the code does not misuse the lock, and returns with `Q`. -/
def Ends (f : PtableM α) (Q : α → Kernel → Prop) (k : Kernel) : Prop :=
  wp f Q (fun e _ => ∃ x, e = .other x) k

theorem ends_fail (h : k.ptableLocked = true) :
    Ends Locked.fail (fun _ k' => k'.ptableLocked = false) k := by
  rw [Ends, Locked.fail, wp_bind, wp_release h]
  exact rfl

theorem ends_shareSz {sz : Nat} (h : k.ptableLocked = true) :
    Ends (Locked.shareSz m sz) (fun _ k' => k'.ptableLocked = false) k := by
  rw [Ends, Locked.shareSz, wp_bind]
  refine wp_change (fun k' hs => ?_) h (fun e _ => ⟨e, rfl⟩) fun k' h' => ?_
  · split at hs
    · cases hs
    · cases hs
      exact locked_setSz _
  · rw [wp_bind, wp_release h']
    exact rfl

theorem ends_growproc {n : Int} {ok : Bool} (h : k.ptableLocked = false) :
    Ends (Locked.growproc c n ok) (fun _ k' => k'.ptableLocked = false) k := by
  rw [Ends, Locked.growproc, wp_bind, wp_acquire h, wp_bind]
  refine wp_value (fun e _ => ⟨e, rfl⟩) fun m _ => ?_
  rw [wp_bind, wp_get]
  refine wp_ite (fun _ => ?_) fun _ => wp_ite (fun _ => ?_) fun _ => ends_shareSz rfl
  · exact wp_ite (fun _ => ends_fail rfl) fun _ =>
      wp_ite (fun _ => ends_fail rfl) fun _ => ends_shareSz rfl
  · exact wp_ite (fun _ => ends_fail rfl) fun _ => ends_shareSz rfl

theorem ends_kill {pid : Int} (h : k.ptableLocked = false) :
    Ends (Locked.kill pid) (fun _ k' => k'.ptableLocked = false) k := by
  rw [Ends, Locked.kill, wp_bind, wp_acquire h, wp_bind, wp_get]
  split
  · exact ends_fail rfl
  · rw [wp_bind, wp_set, wp_bind, wp_release rfl]
    exact rfl

theorem ends_waitScan {again : PtableM Int} (h : k.ptableLocked = true)
    (hagain : Ends again (fun _ k' => k'.ptableLocked = false) k) :
    Ends (Locked.waitScan c again) (fun _ k' => k'.ptableLocked = false) k := by
  rw [Ends, Locked.waitScan, wp_bind, wp_get]
  split
  · rw [wp_bind]
    refine wp_change (fun k' hs => locked_reap hs) h (fun e _ => ⟨e, rfl⟩) fun k' h' => ?_
    rw [wp_bind, wp_release h']
    exact rfl
  · exact wp_ite (fun _ => ends_fail h) fun _ => hagain

theorem ends_waitLoop {ws : List Kernel} (h : k.ptableLocked = true) :
    Ends (Locked.waitLoop c ws) (fun _ k' => k'.ptableLocked = false) k := by
  induction ws generalizing k with
  | nil =>
    refine ends_waitScan h ?_
    rw [Ends, wp_throw]
    exact ⟨_, rfl⟩
  | cons w ws ih =>
    refine ends_waitScan h ?_
    rw [Ends, wp_bind, wp_sleepUntil h]
    exact ih rfl

theorem ends_wait {ws : List Kernel} (h : k.ptableLocked = false) :
    Ends (Locked.wait c ws) (fun _ k' => k'.ptableLocked = false) k := by
  rw [Ends, Locked.wait, wp_bind, wp_acquire h]
  exact ends_waitLoop rfl

theorem ends_joinRound {again : PtableM Int} (h : k.ptableLocked = true)
    (hagain : Ends again (fun _ k' => k'.ptableLocked = false) k) :
    Ends (Locked.joinRound c m p again) (fun _ k' => k'.ptableLocked = false) k := by
  rw [Ends, Locked.joinRound, wp_bind, wp_get]
  refine wp_ite (fun _ => hagain) fun _ => ?_
  rw [wp_bind]
  refine wp_change (fun k' hs => (locked_unlinkThread hs).trans rfl) h (fun e _ => ⟨e, rfl⟩) fun k₁ h₁ => ?_
  rw [wp_bind]
  refine wp_change (fun k' hs => by cases hs; rfl) h₁ (fun e _ => ⟨e, rfl⟩) fun k₂ h₂ => ?_
  rw [wp_bind, wp_release h₂]
  exact rfl

theorem ends_joinLoop {ws : List Kernel} (h : k.ptableLocked = true) :
    Ends (Locked.joinLoop c m p ws) (fun _ k' => k'.ptableLocked = false) k := by
  induction ws generalizing k with
  | nil =>
    refine ends_joinRound h ?_
    rw [Ends, wp_throw]
    exact ⟨_, rfl⟩
  | cons w ws ih =>
    refine ends_joinRound h ?_
    rw [Ends, wp_bind, wp_sleepUntil h]
    exact ih rfl

theorem ends_threadJoin {tid : Nat} {ws : List Kernel} (h : k.ptableLocked = false) :
    Ends (Locked.threadJoin c tid ws) (fun _ k' => k'.ptableLocked = false) k := by
  rw [Ends, Locked.threadJoin, wp_bind]
  refine wp_value (fun e _ => ⟨e, rfl⟩) fun m _ => ?_
  rw [wp_bind, wp_acquire h, wp_bind, wp_get]
  split
  · rw [wp_throw]
    exact ⟨_, rfl⟩
  · exact ends_fail rfl
  · exact ends_joinLoop rfl

theorem ends_killForExec {w : Kernel} (h : k.ptableLocked = false) :
    Ends (Locked.killForExec c w) (fun _ k' => k'.ptableLocked = false) k := by
  rw [Ends, Locked.killForExec, wp_bind, wp_others h, wp_bind, wp_acquire rfl, wp_bind]
  refine wp_change (fun k' hs => locked_killForExec hs) rfl (fun e _ => ⟨e, rfl⟩) fun k' h' => ?_
  rw [wp_release h']

theorem ends_setmemorylimit {pid limit : Int} (h : k.ptableLocked = false) :
    Ends (Locked.setmemorylimit pid limit) (fun _ k' => k'.ptableLocked = false) k := by
  refine wp_ite (fun _ => h) fun _ => ?_
  rw [wp_bind, wp_acquire h, wp_bind, wp_get]
  split
  · exact ends_fail rfl
  · refine wp_ite (fun _ => ends_fail rfl) fun _ => wp_ite (fun _ => ends_fail rfl) fun _ => ?_
    rw [wp_bind]
    refine wp_value (fun e _ => ⟨e, rfl⟩) fun m _ => ?_
    rw [wp_bind, wp_set, wp_bind, wp_release rfl]
    exact rfl

/-- `allocproc` gives out the first unused slot, if there is one and a page for the stack. -/
theorem ends_allocproc {ok : Bool} (h : k.ptableLocked = false) :
    Ends (Locked.allocproc ok) (fun r k' => k'.ptableLocked = false ∧
      (r = none ↔ firstUnused k = none ∨ ok = false)) k := by
  rw [Ends, Locked.allocproc, wp_bind, wp_acquire h, wp_bind, wp_get]
  have hsame : firstUnused { k with ptableLocked := true } = firstUnused k := rfl
  rw [hsame]
  cases hfirst : firstUnused k with
  | none =>
    dsimp only
    rw [wp_bind, wp_release rfl]
    exact ⟨rfl, by simp⟩
  | some p =>
    dsimp only
    rw [wp_bind, wp_set, wp_bind, wp_release rfl, wp_bind, wp_get]
    refine wp_ite (fun hok => ?_) fun hok => ?_
    · exact ⟨rfl, by simp [hok]⟩
    · exact ⟨rfl, by simpa using hok⟩

/-- There is memory for a new stack. -/
def StackFits (w : Kernel) (m : Slot) (stackOk : Bool) : Prop :=
  stackOk = true ∧ pgRoundUp (w.proc m).sz + 2 * PGSIZE < KERNBASE

theorem stackSize_eq_zero {w : Kernel} {ok : Bool} : stackSize w m ok = 0 ↔ ¬ StackFits w m ok := by
  have hpage : PGSIZE = 4096 := rfl
  have hgrow : ¬ pgRoundUp (w.proc m).sz + 2 * PGSIZE < pgRoundUp (w.proc m).sz := by omega
  rw [stackSize, allocuvm, StackFits]
  by_cases hbase : KERNBASE ≤ pgRoundUp (w.proc m).sz + 2 * PGSIZE
  · rw [if_pos hbase]
    exact ⟨fun _ h => absurd h.2 (by omega), fun _ => rfl⟩
  · rw [if_neg hbase, if_neg hgrow]
    cases ok with
    | false => simp
    | true =>
      refine ⟨fun h => ?_, fun h => absurd ⟨rfl, by omega⟩ h⟩
      rw [if_pos rfl] at h
      omega

/-- Without memory for the stack the lock is kept. -/
theorem ends_startThread {np : Slot} {newsz : Nat} (h : k.ptableLocked = true) :
    Ends (Locked.startThread c m np newsz) (fun _ k' => k'.ptableLocked = false ↔ newsz ≠ 0) k := by
  rw [Ends, Locked.startThread, wp_bind, wp_get]
  refine wp_ite (fun hlimit => ?_) fun _ => ?_
  · have hne : newsz ≠ 0 := Nat.ne_of_gt (hlimit.1.trans hlimit.2)
    exact wp_mono (ends_fail h) (fun _ _ h' => ⟨fun _ => hne, fun _ => h'⟩) fun _ _ he => he
  · rw [wp_bind, wp_set]
    refine wp_ite (fun hzero => ?_) fun hne => ?_
    · rw [wp_bind]
      refine wp_change (fun k' hs => by cases hs; rfl) h (fun e _ => ⟨e, rfl⟩) fun k₂ h₂ => ?_
      rw [wp_pure, h₂]
      exact ⟨fun heq => (by cases heq), fun hne => absurd hzero hne⟩
    · rw [wp_bind]
      refine wp_change (fun k' hs => locked_linkThread hs) h (fun e _ => ⟨e, rfl⟩) fun k₂ h₂ => ?_
      rw [wp_bind, wp_release h₂]
      exact ⟨fun _ => hne, fun _ => rfl⟩

/-- `thread_create` keeps the lock, if it has a slot for the thread and no memory for its stack. -/
theorem ends_threadCreate {ok stackOk : Bool} {w : Kernel} (h : k.ptableLocked = false) :
    Ends (Locked.threadCreate c ok w stackOk) (fun _ k' => k'.ptableLocked = false ↔
      firstUnused k = none ∨ ok = false ∨ ∃ m, (k.proc c).mainThread = some m ∧ StackFits w m stackOk)
      k := by
  rw [Ends, Locked.threadCreate, wp_bind]
  refine wp_value (fun e _ => ⟨e, rfl⟩) fun m hm => ?_
  have hmain : (k.proc c).mainThread = some m := by
    unfold deref at hm
    split at hm
    · cases hm
    · rename_i heq
      rw [heq]
      exact congrArg some (Except.ok.inj hm)
  rw [wp_bind]
  refine wp_mono (ends_allocproc h) ?_ fun _ _ he => he
  rintro r k₁ ⟨hfree, hr⟩
  cases r with
  | none => exact ⟨fun _ => (hr.mp rfl).imp id .inl, fun _ => hfree⟩
  | some np =>
    have hslot : ¬ (firstUnused k = none ∨ ok = false) := fun hno => by
      cases hr.mpr hno
    rw [not_or] at hslot
    have hcond : (firstUnused k = none ∨ ok = false ∨
        ∃ m, (k.proc c).mainThread = some m ∧ StackFits w m stackOk) ↔ stackSize w m stackOk ≠ 0 := by
      rw [hmain, ne_eq, stackSize_eq_zero]
      simp [hslot.1, hslot.2]
    rw [hcond]
    dsimp only
    rw [wp_bind, wp_others hfree, wp_bind, wp_acquire rfl, wp_bind, wp_get, wp_bind, wp_set]
    exact ends_startThread locked_attach

/-- `processinfo` keeps the lock, if it is asked about a thread. -/
theorem ends_processinfo {index : Int} (h : k.ptableLocked = false) :
    Ends (Locked.processinfo index) (fun _ k' => k'.ptableLocked = false ↔
      NPROC ≤ index ∨ (k.proc (Locked.indexSlot index)).isThread = false) k := by
  refine wp_ite (fun hbig => ⟨fun _ => .inl hbig, fun _ => h⟩) fun hsmall => ?_
  rw [wp_bind, wp_acquire h, wp_bind, wp_get]
  refine wp_ite (fun hthread => ?_) fun hmain => ?_
  · rw [wp_pure]
    refine ⟨fun heq => (by cases heq), fun hcond => ?_⟩
    rcases hcond with hbig | hmain
    · exact absurd hbig hsmall
    · rw [show (k.proc (Locked.indexSlot index)).isThread = true from hthread] at hmain
      cases hmain
  · have hnot : (k.proc (Locked.indexSlot index)).isThread = false := by
      rwa [Bool.not_eq_true] at hmain
    refine wp_ite (fun _ => ?_) fun _ => ?_
    · rw [wp_bind]
      refine wp_value (fun e _ => ⟨e, rfl⟩) fun m _ => ?_
      rw [wp_bind, wp_release rfl]
      exact ⟨fun _ => .inr hnot, fun _ => rfl⟩
    · rw [wp_bind, wp_release rfl]
      exact ⟨fun _ => .inr hnot, fun _ => rfl⟩

end Specs

/-! ### The steps of the machine -/

section Agreement

variable {k : Kernel} {c m np : Slot}

theorem unlocked_eq (h : k.ptableLocked = false) : { k with ptableLocked := false } = k := by
  rw [← h]

/-- `kill` does what the step of the machine does. -/
theorem kill_agrees {pid : Int} (h : k.ptableLocked = false) :
    wp (Locked.kill pid) (fun r k' => k'.ret c r = kill k c pid) (fun _ _ => False) k := by
  rw [Locked.kill, wp_bind, wp_acquire h, wp_bind, wp_get, kill]
  cases (List.finRange NPROC).find? fun i => (k.proc i).pid = pid with
  | none =>
    dsimp only
    rw [Locked.fail, wp_bind, wp_release rfl, wp_pure]
    dsimp only
    rw [unlocked_eq h]
  | some p =>
    dsimp only
    rw [wp_bind, wp_set, wp_bind, wp_release rfl, wp_pure]
    dsimp only [Kernel.setProc]
    rw [h]

theorem fail_agrees (h : k.ptableLocked = false) {Q : Int → Kernel → Prop} {E : Halt → Kernel → Prop}
    (hQ : Q (-1) k) : wp Locked.fail Q E { k with ptableLocked := true } := by
  rw [Locked.fail, wp_bind, wp_release rfl, wp_pure]
  dsimp only
  rwa [unlocked_eq h]

/-- `setmemorylimit` does what the step of the machine does. -/
theorem setmemorylimit_agrees {pid limit : Int} (h : k.ptableLocked = false) :
    wp (Locked.setmemorylimit pid limit) (fun r k' => setmemorylimit k pid limit =
      .ok (if r = 0 then some k' else none)) (fun e _ => ∃ x, e = .other x) k := by
  rw [setmemorylimit]
  refine wp_ite (fun hneg => ?_) fun hneg => ?_
  · rw [wp_pure, if_pos hneg]
    rfl
  · rw [wp_bind, wp_acquire h, wp_bind, wp_get, if_neg hneg]
    dsimp only
    cases (List.finRange NPROC).find? fun i => (k.proc i).pid = pid ∧ (k.proc i).isThread = false with
    | none => exact fail_agrees h rfl
    | some p =>
      refine wp_ite (fun hst => ?_) fun hst => wp_ite (fun hsz => ?_) fun hsz => ?_
      · exact fail_agrees h (if_pos (.inl hst))
      · exact fail_agrees h (if_pos (.inr hsz))
      · rw [wp_bind]
        refine wp_value (fun e _ => ⟨e, rfl⟩) fun m hm => ?_
        rw [wp_bind, wp_set, wp_bind, wp_release rfl, wp_pure]
        dsimp only
        rw [if_neg (not_or.mpr ⟨hst, hsz⟩)]
        have hmain : deref (k.proc p).mainThread = .ok m := hm
        rw [hmain, ok_bind]
        dsimp only [Kernel.setProc]
        rw [h]
        rfl

/-- The end of `growproc` gives the size to the threads. -/
theorem shareSz_agrees {sz : Nat} (h : k.ptableLocked = false) :
    wp (Locked.shareSz m sz) (fun r k' => r = 0 ∧ ∃ xs, walkList k.next NPROC (some m) = some xs ∧
      k' = setSz k sz xs) (fun e _ => ∃ x, e = .other x) { k with ptableLocked := true } := by
  have hsz : ∀ (xs : List Slot) (k : Kernel) (l : Bool), setSz { k with ptableLocked := l } sz xs =
      { setSz k sz xs with ptableLocked := l } := by
    intro xs
    induction xs with
    | nil => exact fun _ _ => rfl
    | cons x xs ih => exact fun k l => ih (k.setProc x fun q => { q with sz := sz }) l
  rw [Locked.shareSz, wp_bind, wp, change]
  have hnext : Kernel.next { k with ptableLocked := true } = k.next := rfl
  rw [hnext]
  cases hwalk : walkList k.next NPROC (some m) with
  | none => exact ⟨_, rfl⟩
  | some xs =>
    dsimp only
    rw [hsz, wp_bind, wp_release rfl, wp_pure]
    refine ⟨rfl, xs, rfl, ?_⟩
    have hfree : (setSz k sz xs).ptableLocked = false := (locked_setSz xs).trans h
    exact unlocked_eq hfree

/-- `growproc` does what the step of the machine does. -/
theorem growproc_agrees {n : Int} {ok : Bool} (h : k.ptableLocked = false) :
    wp (Locked.growproc c n ok) (fun r k' => growproc k c n ok =
      .ok (if r = 0 then some k' else none)) (fun e _ => ∃ x, e = .other x) k := by
  rw [Locked.growproc, wp_bind, wp_acquire h, wp_bind]
  refine wp_value (fun e _ => ⟨e, rfl⟩) fun m hm => ?_
  have hmain : deref (k.proc c).mainThread = .ok m := hm
  rw [wp_bind, wp_get]
  have hgrow : ∀ sz, newSize k m n ok = some sz → wp (Locked.shareSz m sz) (fun r k' =>
      growproc k c n ok = .ok (if r = 0 then some k' else none)) (fun e _ => ∃ x, e = .other x)
      { k with ptableLocked := true } := by
    intro sz hsz
    refine wp_mono (shareSz_agrees h) ?_ fun _ _ he => he
    rintro r k' ⟨rfl, xs, hwalk, rfl⟩
    rw [growproc, hmain, ok_bind, hsz]
    dsimp only
    rw [hwalk]
    rfl
  have hfail : newSize k m n ok = none → wp Locked.fail (fun r k' =>
      growproc k c n ok = .ok (if r = 0 then some k' else none)) (fun e _ => ∃ x, e = .other x)
      { k with ptableLocked := true } := by
    intro hnone
    refine fail_agrees h ?_
    rw [growproc, hmain, ok_bind, hnone]
    rfl
  refine wp_ite (fun hpos => ?_) fun hpos => wp_ite (fun hneg => ?_) fun hneg => ?_
  · refine wp_ite (fun hlimit => hfail ?_) fun hlimit => wp_ite (fun hzero => hfail ?_) fun hzero => hgrow _ ?_
    · rw [newSize, if_pos hpos]
      exact if_pos hlimit
    · rw [newSize, if_pos hpos]
      exact (if_neg hlimit).trans (if_pos hzero)
    · rw [newSize, if_pos hpos]
      exact (if_neg hlimit).trans (if_neg hzero)
  · refine wp_ite (fun hzero => hfail ?_) fun hzero => hgrow _ ?_
    · rw [newSize, if_neg hpos, if_pos hneg]
      exact if_pos hzero
    · rw [newSize, if_neg hpos, if_pos hneg]
      exact if_neg hzero
  · refine hgrow _ ?_
    rw [newSize, if_neg hpos, if_neg hneg]

end Agreement

/-! ### Sequences of calls -/

/-- A call of one of the routines, with its arguments and what other processes do meanwhile. -/
inductive PtableCall
  | growproc (n : Int) (kallocOk : Bool)
  | kill (pid : Int)
  | wait (ws : List Kernel)
  | threadCreate (kallocOk : Bool) (w : Kernel) (stackOk : Bool)
  | threadJoin (tid : Nat) (ws : List Kernel)
  | killForExec (w : Kernel)
  | setmemorylimit (pid limit : Int)
  | processinfo (index : Int)

/-- Leave the result out. -/
def ignore {α : Type} (f : PtableM α) : PtableM Unit := do
  let _ ← f
  pure ()

/-- The call by `c`. -/
def PtableCall.run (c : Slot) : PtableCall → PtableM Unit
  | .growproc n ok => ignore (Locked.growproc c n ok)
  | .kill pid => ignore (Locked.kill pid)
  | .wait ws => ignore (Locked.wait c ws)
  | .threadCreate ok w stackOk => ignore (Locked.threadCreate c ok w stackOk)
  | .threadJoin tid ws => ignore (Locked.threadJoin c tid ws)
  | .killForExec w => Locked.killForExec c w
  | .setmemorylimit pid limit => ignore (Locked.setmemorylimit pid limit)
  | .processinfo index => ignore (Locked.processinfo index)

/-- The calls that release the lock. -/
def PtableCall.Releases (c : Slot) (k : Kernel) : PtableCall → Prop
  | .threadCreate ok w stackOk => firstUnused k = none ∨ ok = false ∨
      ∃ m, (k.proc c).mainThread = some m ∧ StackFits w m stackOk
  | .processinfo index => NPROC ≤ index ∨ (k.proc (Locked.indexSlot index)).isThread = false
  | _ => True

/-- A call, or something else that the processes do while the lock is free. -/
inductive PtableStep
  | call (c : Slot) (x : PtableCall)
  | other (w : Kernel)

def ptableStep (k : Kernel) : PtableStep → Except Halt Kernel
  | .call c x =>
    match x.run c k with
    | .ok _ k' => .ok k'
    | .error e _ => .error e
  | .other w => if k.ptableLocked then .error .sched else .ok { w with ptableLocked := false }

/-- All calls release the lock. -/
def AllRelease (k : Kernel) : PtableStep → Prop
  | .call c x => x.Releases c k
  | .other _ => True

section Calls

variable {k k' : Kernel} {c : Slot}

theorem wp_ignore {α : Type} {f : PtableM α} {Q : Unit → Kernel → Prop} {E : Halt → Kernel → Prop}
    (h : wp f (fun _ k' => Q () k') E k) : wp (ignore f) Q E k := by
  rw [ignore, wp_bind]
  exact h

/-- A call that starts with the lock free does not misuse the lock, and returns with the lock free if
    and only if it is one of those that release it. -/
theorem ends_ptableCall (x : PtableCall) (h : k.ptableLocked = false) :
    Ends (x.run c) (fun _ k' => k'.ptableLocked = false ↔ x.Releases c k) k := by
  have htrue : ∀ {α : Type} {f : PtableM α}, Ends f (fun _ k' => k'.ptableLocked = false) k →
      Ends f (fun _ k' => k'.ptableLocked = false ↔ True) k := fun hf =>
    wp_mono hf (fun _ _ h' => ⟨fun _ => trivial, fun _ => h'⟩) fun _ _ he => he
  cases x with
  | growproc n ok => exact wp_ignore (htrue (ends_growproc h))
  | kill pid => exact wp_ignore (htrue (ends_kill h))
  | wait ws => exact wp_ignore (htrue (ends_wait h))
  | threadCreate ok w stackOk => exact wp_ignore (ends_threadCreate h)
  | threadJoin tid ws => exact wp_ignore (htrue (ends_threadJoin h))
  | killForExec w => exact htrue (ends_killForExec h)
  | setmemorylimit pid limit => exact wp_ignore (htrue (ends_setmemorylimit h))
  | processinfo index => exact wp_ignore (ends_processinfo h)

/-- Does the call return with the lock held? -/
def leavesLocked (f : PtableM Unit) (k : Kernel) : Bool :=
  match f k with
  | .ok _ k' => k'.ptableLocked
  | .error _ _ => false

theorem exists_of_leavesLocked {f : PtableM Unit} (h : leavesLocked f k = true) :
    ∃ k', f k = .ok () k' ∧ k'.ptableLocked = true := by
  unfold leavesLocked at h
  split at h
  · exact ⟨_, ‹_›, h⟩
  · cases h

end Calls

end Xv6.Thread
