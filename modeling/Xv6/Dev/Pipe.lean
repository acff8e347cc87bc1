import Xv6.Lib.Ring
import Xv6.Lib.Simulation
import Xv6.Lib.Transition

namespace Xv6.Ipc

open Xv6.Lib

/-!
# Pipes — readers and writers (`pj3/pipe.c`)

Any number of processes read from a pipe and write to it at any time.  What a process does from
`acquire(&p->lock)` to `sleep` or `release`, or from the return of `sleep`, is one step.  `fileclose`
calls `pipeclose` for the last descriptor of an end, so that no call uses that end any more.

* `Pipe`, `step` — the pipe, and where every process is;
* `Channel` — what a pipe is for: a queue of bytes with a bounded length;
* `Holds` — how a pipe stands for a channel;
* `pipe_is_fifo` — what the processes see of a pipe they could see of a channel, and the bytes that have
  been put into it are those that have been read, in this order, and those that it still holds;
* `pipe_sleepers` — when a process may sleep.
-/

/-! ### State -/

/-- `PIPESIZE`. -/
def PIPESIZE : Nat := 512

instance : NeZero PIPESIZE := ⟨by decide⟩

/-- `NPROC`. -/
def NPROC : Nat := 64

instance : NeZero NPROC := ⟨by decide⟩

/-- A process. -/
abbrev Pid := Fin NPROC

/-- Where a process is: outside, in `pipewrite` with the bytes that are left of `n`, or in `piperead`
    before the first byte; asleep, or about to run. -/
inductive Pc
  | user
  | write (rest : List UInt8) (n : Nat) (asleep : Bool)
  | read (n : Nat) (asleep : Bool)
  deriving DecidableEq

/-- `struct pipe`; `freed` behind `kfree`.  `killed` and `pc` belong to the processes. -/
structure Pipe where
  data : Fin PIPESIZE → UInt8
  nread : UInt32 := 0
  nwrite : UInt32 := 0
  readopen : Bool := true
  writeopen : Bool := true
  freed : Bool := false
  killed : Pid → Bool
  pc : Pid → Pc

/-- Why a step is not possible: the pipe has been freed, or it is not at its turn. -/
inductive Stop
  | freed
  | blocked
  deriving DecidableEq, Repr

/-- What the processes see: a call, the bytes that `pipewrite` has put into the pipe when it sleeps or
    returns, with the result, the bytes or the error that `piperead` returns, and `pipeclose`. -/
inductive Event
  | write (p : Pid) (bs : List UInt8)
  | put (p : Pid) (bs : List UInt8) (r : Option Int)
  | read (p : Pid) (n : Nat)
  | got (p : Pid) (r : Option (List UInt8))
  | close (writable : Bool)
  deriving DecidableEq

/-- A process goes on at another place. -/
def Pipe.setPc (k : Pipe) (p : Pid) (x : Pc) : Pipe := { k with pc := Function.update k.pc p x }

/-! ### The code -/

/-- A process that sleeps on `&p->nread` becomes runnable. -/
def Pc.wakeReader : Pc → Pc
  | .read n _ => .read n false
  | x => x

/-- A process that sleeps on `&p->nwrite` becomes runnable. -/
def Pc.wakeWriter : Pc → Pc
  | .write rest n _ => .write rest n false
  | x => x

/-- `wakeup(&p->nread)`. -/
def wakeReaders (k : Pipe) : Pipe := { k with pc := fun p => (k.pc p).wakeReader }

/-- `wakeup(&p->nwrite)`. -/
def wakeWriters (k : Pipe) : Pipe := { k with pc := fun p => (k.pc p).wakeWriter }

/-- `p->nwrite == p->nread + PIPESIZE`. -/
def full (k : Pipe) : Bool := k.nwrite = k.nread + UInt32.ofNat PIPESIZE

/-- `p->data[p->nwrite++ % PIPESIZE] = c`. -/
def putByte (k : Pipe) (c : UInt8) : Pipe :=
  { k with data := Function.update k.data (slot PIPESIZE k.nwrite) c, nwrite := k.nwrite + 1 }

/-- The loop of `pipewrite` with `bs` to write, up to `sleep` or the end; `done` are the bytes put since
    the lock was taken. -/
def writeLoop (p : Pid) (n : Nat) (done : List UInt8) : List UInt8 → Pipe → Option Event × Pipe
  | [], k => (some (.put p done (some n)), (wakeReaders k).setPc p .user)
  | c :: cs, k =>
    if full k then
      if k.readopen = false ∨ k.killed p = true then
        (some (.put p done (some (-1))), k.setPc p .user)
      else (some (.put p done none), (wakeReaders k).setPc p (.write (c :: cs) n true))
    else writeLoop p n (done ++ [c]) cs (putByte k c)

/-- The loop of `piperead` that copies. -/
def copyLoop : Nat → Pipe → List UInt8 × Pipe
  | 0, k => ([], k)
  | i + 1, k =>
    if k.nread = k.nwrite then ([], k)
    else
      let c := k.data (slot PIPESIZE k.nread)
      let (cs, k) := copyLoop i { k with nread := k.nread + 1 }
      (c :: cs, k)

/-- `piperead` behind `acquire` or `sleep`. -/
def readLoop (k : Pipe) (p : Pid) (n : Nat) : Option Event × Pipe :=
  if k.nread = k.nwrite ∧ k.writeopen = true then
    if k.killed p then (some (.got p none), k.setPc p .user)
    else (none, k.setPc p (.read n true))
  else
    let (cs, k) := copyLoop n k
    (some (.got p (some cs)), (wakeWriters k).setPc p .user)

/-- `pipeclose(p, writable)`. -/
def pipeclose (k : Pipe) (writable : Bool) : Pipe :=
  let k := if writable then wakeReaders { k with writeopen := false }
    else wakeWriters { k with readopen := false }
  if k.readopen = false ∧ k.writeopen = false then { k with freed := true } else k

/-! ### Steps -/

/-- Is the process in `pipewrite`? -/
def Pc.writes : Pc → Bool
  | .write _ _ _ => true
  | _ => false

/-- Is the process in `piperead`? -/
def Pc.reads : Pc → Bool
  | .read _ _ => true
  | _ => false

/-- What can happen next: a process calls `pipewrite` or `piperead` through an open file, takes the lock
    or returns from `sleep`, or is killed; or an end that no process uses is closed. -/
inductive Act
  | write (p : Pid) (bs : List UInt8)
  | read (p : Pid) (n : Nat)
  | run (p : Pid)
  | kill (p : Pid)
  | close (writable : Bool)

/-- One step, with the event that it shows. -/
def step (k : Pipe) : Act → Except Stop (Option Event × Pipe)
  | .write p bs =>
    if k.pc p = .user ∧ k.writeopen = true then
      .ok (some (.write p bs), k.setPc p (.write bs bs.length false))
    else .error .blocked
  | .read p n =>
    if k.pc p = .user ∧ k.readopen = true then .ok (some (.read p n), k.setPc p (.read n false))
    else .error .blocked
  | .run p =>
    match k.pc p with
    | .write rest n false => if k.freed then .error .freed else .ok (writeLoop p n [] rest k)
    | .read n false => if k.freed then .error .freed else .ok (readLoop k p n)
    | _ => .error .blocked
  | .kill p => .ok (none, { k with
      killed := Function.update k.killed p true
      pc := Function.update k.pc p (k.pc p).wakeReader.wakeWriter })
  | .close true =>
    if k.writeopen = true ∧ ∀ p, (k.pc p).writes = false then
      if k.freed then .error .freed else .ok (some (.close true), pipeclose k true)
    else .error .blocked
  | .close false =>
    if k.readopen = true ∧ ∀ p, (k.pc p).reads = false then
      if k.freed then .error .freed else .ok (some (.close false), pipeclose k false)
    else .error .blocked

/-- The pipe behind `pipealloc`; `data` is what was on the page. -/
structure Initial (k : Pipe) : Prop where
  nread : k.nread = 0
  nwrite : k.nwrite = 0
  readopen : k.readopen = true
  writeopen : k.writeopen = true
  freed : k.freed = false
  user : ∀ p, k.pc p = .user

/-- The runs of a pipe. -/
def pipe : System Pipe Event := .ofStep Initial step fun _ _ => True

/-! ### Channels -/

/-- A queue of bytes: the ends that are open, what the calls of `write` still have to send and their
    results, how much the calls of `read` want, the processes that have been killed, and whether a killed
    process has left a full channel. -/
structure Channel where
  queue : List UInt8
  readopen : Bool
  writeopen : Bool
  rest : Pid → Option (List UInt8 × Nat)
  want : Pid → Option Nat
  killed : Pid → Bool
  left : Bool

/-- The steps of a channel. -/
inductive Channel.Step : Channel → Option Event → Channel → Prop
  | write {a : Channel} {p : Pid} {bs : List UInt8} : a.rest p = none → a.writeopen = true →
      Step a (some (.write p bs)) { a with rest := Function.update a.rest p (some (bs, bs.length)) }
  /-- All the bytes have been sent. -/
  | finish {a : Channel} {p : Pid} {bs : List UInt8} {n : Nat} : a.rest p = some (bs, n) →
      (a.queue ++ bs).length ≤ PIPESIZE →
      Step a (some (.put p bs (some n)))
        { a with queue := a.queue ++ bs, rest := Function.update a.rest p none }
  /-- The channel is full. -/
  | wait {a : Channel} {p : Pid} {bs cs : List UInt8} {n : Nat} : a.rest p = some (bs ++ cs, n) →
      cs ≠ [] → (a.queue ++ bs).length = PIPESIZE → a.readopen = true → a.killed p = false →
      Step a (some (.put p bs none))
        { a with queue := a.queue ++ bs, rest := Function.update a.rest p (some (cs, n)) }
  /-- The channel is full, and the call gives up. -/
  | fail {a : Channel} {p : Pid} {bs cs : List UInt8} {n : Nat} : a.rest p = some (bs ++ cs, n) →
      cs ≠ [] → (a.queue ++ bs).length = PIPESIZE → a.readopen = false ∨ a.killed p = true →
      Step a (some (.put p bs (some (-1))))
        { a with queue := a.queue ++ bs, rest := Function.update a.rest p none, left := true }
  | read {a : Channel} {p : Pid} {n : Nat} : a.want p = none → a.readopen = true →
      Step a (some (.read p n)) { a with want := Function.update a.want p (some n) }
  | receive {a : Channel} {p : Pid} {n : Nat} : a.want p = some n →
      a.queue ≠ [] ∨ a.writeopen = false →
      Step a (some (.got p (some (a.queue.take n))))
        { a with queue := a.queue.drop n, want := Function.update a.want p none }
  | giveUp {a : Channel} {p : Pid} {n : Nat} : a.want p = some n → a.queue = [] → a.writeopen = true →
      a.killed p = true → Step a (some (.got p none)) { a with want := Function.update a.want p none }
  | kill {a : Channel} {p : Pid} : Step a none { a with killed := Function.update a.killed p true }
  | closeWrite {a : Channel} : a.writeopen = true → (∀ p, a.rest p = none) →
      Step a (some (.close true)) { a with writeopen := false }
  | closeRead {a : Channel} : a.readopen = true → (∀ p, a.want p = none) →
      Step a (some (.close false)) { a with readopen := false }

/-- The runs of a channel that is empty at first. -/
def channel : System Channel Event where
  init a := a.queue = [] ∧ a.readopen = true ∧ a.writeopen = true ∧ (∀ p, a.rest p = none) ∧
    (∀ p, a.want p = none) ∧ a.left = false
  step := Channel.Step

/-- The bytes that have been put into the pipe. -/
def sent : List Event → List UInt8
  | [] => []
  | .put _ bs _ :: es => bs ++ sent es
  | _ :: es => sent es

/-- The bytes that have been read. -/
def got : List Event → List UInt8
  | [] => []
  | .got _ (some bs) :: es => bs ++ got es
  | _ :: es => got es


/-! ### The pipe stands for the channel -/

variable {k k' : Pipe} {a : Channel} {p q : Pid} {es : List Event} {n : Nat} {bs cs : List UInt8}

/-- What a call of `pipewrite` has left, and its result. -/
def Pc.rest : Pc → Option (List UInt8 × Nat)
  | .write rest n _ => some (rest, n)
  | _ => none

/-- What a call of `piperead` wants. -/
def Pc.want : Pc → Option Nat
  | .read n _ => some n
  | _ => none

/-- When a process may sleep. -/
def Sleeps (a : Channel) (p : Pid) : Pc → Prop
  | .write _ _ true => a.queue.length = PIPESIZE ∧ a.readopen = true ∧ a.killed p = false
  | .read _ true => a.writeopen = true ∧ a.killed p = false ∧ (a.queue = [] ∨ a.left = true)
  | _ => True

/-- What the channel knows of a process. -/
structure Process (a : Channel) (p : Pid) (x : Pc) : Prop where
  rest : a.rest p = x.rest
  want : a.want p = x.want
  writes : x.rest.isSome → a.writeopen = true
  reads : x.want.isSome → a.readopen = true
  sleeps : Sleeps a p x

/-- The pipe holds the queue of the channel, and the calls are those of the channel. -/
structure Holds (k : Pipe) (a : Channel) : Prop where
  window : Window k.data k.nread k.nwrite a.queue
  readopen : a.readopen = k.readopen
  writeopen : a.writeopen = k.writeopen
  killed : a.killed = k.killed
  freed : k.freed = true → k.readopen = false ∧ k.writeopen = false
  process : ∀ p, Process a p (k.pc p)

theorem PIPESIZE_lt : PIPESIZE < 2 ^ 32 := by decide

theorem PIPESIZE_dvd : PIPESIZE ∣ 2 ^ 32 := by decide

theorem full_iff (h : Window k.data k.nread k.nwrite bs) : full k = true ↔ bs.length = PIPESIZE := by
  rw [full, decide_eq_true_iff, h.full_iff PIPESIZE_lt]

@[simp] theorem rest_wakeReader (x : Pc) : x.wakeReader.rest = x.rest := by cases x <;> rfl

@[simp] theorem want_wakeReader (x : Pc) : x.wakeReader.want = x.want := by cases x <;> rfl

@[simp] theorem rest_wakeWriter (x : Pc) : x.wakeWriter.rest = x.rest := by cases x <;> rfl

@[simp] theorem want_wakeWriter (x : Pc) : x.wakeWriter.want = x.want := by cases x <;> rfl

theorem writes_eq (x : Pc) : x.writes = x.rest.isSome := by cases x <;> rfl

theorem reads_eq (x : Pc) : x.reads = x.want.isSome := by cases x <;> rfl

@[simp] theorem setPc_self (x : Pc) : (k.setPc p x).pc p = x := Function.update_self p _ _

@[simp] theorem setPc_other (h : q ≠ p) (x : Pc) : (k.setPc p x).pc q = k.pc q :=
  Function.update_of_ne h _ _

/-! ### The loops -/

/-- The bytes that `pipewrite` puts into the pipe: all that fit; and how it goes on. -/
theorem writeLoop_eq (done : List UInt8) (hw : Window k.data k.nread k.nwrite (cs ++ done)) :
    ∃ us vs data nwrite, bs = us ++ vs ∧ Window data k.nread nwrite (cs ++ (done ++ us)) ∧
      let k₁ := { k with data := data, nwrite := nwrite }
      (vs = [] ∧ writeLoop p n done bs k =
        (some (.put p (done ++ us) (some n)), (wakeReaders k₁).setPc p .user)) ∨
      (vs ≠ [] ∧ (cs ++ (done ++ us)).length = PIPESIZE ∧ (k.readopen = false ∨ k.killed p = true) ∧
        writeLoop p n done bs k = (some (.put p (done ++ us) (some (-1))), k₁.setPc p .user)) ∨
      (vs ≠ [] ∧ (cs ++ (done ++ us)).length = PIPESIZE ∧ k.readopen = true ∧ k.killed p = false ∧
        writeLoop p n done bs k =
          (some (.put p (done ++ us) none), (wakeReaders k₁).setPc p (.write vs n true))) := by
  induction bs generalizing k done with
  | nil => exact ⟨[], [], k.data, k.nwrite, rfl, by rwa [List.append_nil], .inl ⟨rfl, by rw [writeLoop, List.append_nil]⟩⟩
  | cons c bs ih =>
    rw [writeLoop]
    by_cases hfull : full k = true
    · rw [if_pos hfull]
      have hlen := (full_iff hw).mp hfull
      refine ⟨[], c :: bs, k.data, k.nwrite, rfl, by rwa [List.append_nil], .inr ?_⟩
      rw [List.append_nil]
      by_cases hfail : k.readopen = false ∨ k.killed p = true
      · rw [if_pos hfail]
        exact .inl ⟨by simp, hlen, hfail, rfl⟩
      · rw [if_neg hfail]
        rw [not_or, Bool.not_eq_false, Bool.not_eq_true] at hfail
        exact .inr ⟨by simp, hlen, hfail.1, hfail.2, rfl⟩
    · rw [if_neg hfull]
      have hlen : (cs ++ done).length < PIPESIZE :=
        Nat.lt_of_le_of_ne hw.length fun h0 => hfull ((full_iff hw).mpr h0)
      have hpush := hw.push PIPESIZE_dvd hlen c
      rw [List.append_assoc] at hpush
      obtain ⟨us, vs, data, nwrite, rfl, hwin, hrun⟩ := @ih (putByte k c) (done ++ [c]) hpush
      refine ⟨c :: us, vs, data, nwrite, rfl, ?_, ?_⟩
      · rw [List.append_assoc, List.singleton_append] at hwin
        exact hwin
      · rw [List.append_assoc, List.singleton_append] at hrun
        exact hrun

/-- The bytes that `piperead` copies. -/
theorem copyLoop_eq (n : Nat) (hw : Window k.data k.nread k.nwrite bs) :
    ∃ nread, copyLoop n k = (bs.take n, { k with nread := nread }) ∧
      Window k.data nread k.nwrite (bs.drop n) := by
  induction n generalizing k bs with
  | zero => exact ⟨k.nread, rfl, hw⟩
  | succ n ih =>
    rw [copyLoop]
    by_cases hempty : k.nread = k.nwrite
    · obtain rfl := (hw.empty_iff PIPESIZE_lt).mp hempty
      rw [if_pos hempty]
      exact ⟨k.nread, rfl, hw⟩
    · rw [if_neg hempty]
      cases bs with
      | nil => exact absurd ((hw.empty_iff PIPESIZE_lt).mpr rfl) hempty
      | cons c bs =>
        obtain ⟨hc, hw'⟩ := hw.pop
        obtain ⟨nread, hcopy, hwin⟩ := @ih { k with nread := k.nread + 1 } bs hw'
        refine ⟨nread, ?_, hwin⟩
        dsimp only
        rw [hcopy, hc]
        rfl

/-! ### The steps -/

/-- A process that has no part in the step. -/
theorem Process.other {a' : Channel} {x y : Pc} (h : Process a q x) (hrest : y.rest = x.rest)
    (hwant : y.want = x.want) (harest : a'.rest q = a.rest q) (hawant : a'.want q = a.want q)
    (hwrite : a'.writeopen = a.writeopen) (hread : a'.readopen = a.readopen) (hs : Sleeps a' q y) :
    Process a' q y :=
  ⟨by rw [harest, hrest, h.rest], by rw [hawant, hwant, h.want], by rw [hrest, hwrite]; exact h.writes,
    by rw [hwant, hread]; exact h.reads, hs⟩

/-- Readers that sleep are woken up, and a full channel has got no byte more. -/
theorem Sleeps.wakeReader {a' : Channel} {x : Pc} (h : Sleeps a q x)
    (hfull : a.queue.length = PIPESIZE → a'.queue.length = PIPESIZE) (hread : a'.readopen = a.readopen)
    (hkilled : a'.killed = a.killed) : Sleeps a' q x.wakeReader := by
  cases x with
  | user => trivial
  | read n asleep => trivial
  | write rest n asleep =>
    cases asleep with
    | false => trivial
    | true => exact ⟨hfull h.1, hread.trans h.2.1, (congrFun hkilled q).trans h.2.2⟩

/-- Writers that sleep are woken up, and an empty channel has stayed empty. -/
theorem Sleeps.wakeWriter {a' : Channel} {x : Pc} (h : Sleeps a q x) (hempty : a.queue = [] → a'.queue = [])
    (hwrite : a'.writeopen = a.writeopen) (hkilled : a'.killed = a.killed) (hleft : a'.left = a.left) :
    Sleeps a' q x.wakeWriter := by
  cases x with
  | user => trivial
  | write rest n asleep => trivial
  | read n asleep =>
    cases asleep with
    | false => trivial
    | true =>
      refine ⟨hwrite.trans h.1, (congrFun hkilled q).trans h.2.1, h.2.2.imp hempty fun h0 => ?_⟩
      rw [hleft, h0]

/-- What does not change in a step of a process. -/
structure SameEnds (k k' : Pipe) : Prop where
  readopen : k'.readopen = k.readopen
  writeopen : k'.writeopen = k.writeopen
  killed : k'.killed = k.killed
  freed : k'.freed = k.freed

/-- The same for the channel. -/
structure SameChannel (a a' : Channel) (p : Pid) : Prop where
  readopen : a'.readopen = a.readopen
  writeopen : a'.writeopen = a.writeopen
  killed : a'.killed = a.killed
  rest : ∀ q, q ≠ p → a'.rest q = a.rest q
  want : ∀ q, q ≠ p → a'.want q = a.want q

/-- A step of the process `p`, which may wake up other ones. -/
theorem Holds.advance {a' : Channel} {x : Pc} {f : Pc → Pc} (h : Holds k a) (hk : SameEnds k k')
    (ha : SameChannel a a' p) (hwin : Window k'.data k'.nread k'.nwrite a'.queue)
    (hpc : ∀ q, k'.pc q = f (k.pc q)) (hf : ∀ y, (f y).rest = y.rest ∧ (f y).want = y.want)
    (hp : Process a' p x) (hs : ∀ q y, Sleeps a q y → Sleeps a' q (f y)) : Holds (k'.setPc p x) a' := by
  refine ⟨hwin, ?_, ?_, ?_, fun hfreed => ?_, fun q => ?_⟩
  · exact (ha.readopen.trans h.readopen).trans hk.readopen.symm
  · exact (ha.writeopen.trans h.writeopen).trans hk.writeopen.symm
  · exact (ha.killed.trans h.killed).trans hk.killed.symm
  · have hfreed : k'.freed = true := hfreed
    rw [hk.freed] at hfreed
    obtain ⟨hread, hwrite⟩ := h.freed hfreed
    exact ⟨hk.readopen.trans hread, hk.writeopen.trans hwrite⟩
  · by_cases hqp : q = p
    · rw [hqp, setPc_self]
      exact hp
    · have hproc := h.process q
      rw [setPc_other hqp, hpc]
      exact hproc.other (hf _).1 (hf _).2 (ha.rest q hqp) (ha.want q hqp) ha.writeopen ha.readopen
        (hs q _ hproc.sleeps)

/-- The conditions of the processes that sleep speak of the queue and the ends. -/
theorem Sleeps.congr {a' : Channel} {x : Pc} (h : Sleeps a q x) (hqueue : a'.queue = a.queue)
    (hread : a'.readopen = a.readopen) (hwrite : a'.writeopen = a.writeopen) (hkilled : a'.killed = a.killed)
    (hleft : a'.left = a.left) : Sleeps a' q x := by
  unfold Sleeps at h ⊢
  rwa [hqueue, hread, hwrite, hkilled, hleft]

theorem Holds.write (h : Holds k a) (hp : k.pc p = .user) (hopen : k.writeopen = true) :
    ∃ a', channel.step a (some (.write p bs)) a' ∧ Holds (k.setPc p (.write bs bs.length false)) a' := by
  have hproc := h.process p
  rw [hp] at hproc
  have hopen := h.writeopen.trans hopen
  refine ⟨_, Channel.Step.write hproc.rest hopen, h.advance (f := id) ⟨rfl, rfl, rfl, rfl⟩
    ⟨rfl, rfl, rfl, fun q hq => Function.update_of_ne hq _ _, fun _ _ => rfl⟩ h.window (fun _ => rfl)
    (fun _ => ⟨rfl, rfl⟩) ⟨?_, hproc.want, fun _ => hopen, nofun, trivial⟩ fun q y hy => ?_⟩
  · exact Function.update_self _ _ _
  · exact hy.congr rfl rfl rfl rfl rfl

theorem Holds.read (h : Holds k a) (hp : k.pc p = .user) (hopen : k.readopen = true) :
    ∃ a', channel.step a (some (.read p n)) a' ∧ Holds (k.setPc p (.read n false)) a' := by
  have hproc := h.process p
  rw [hp] at hproc
  have hopen := h.readopen.trans hopen
  refine ⟨_, Channel.Step.read hproc.want hopen, h.advance (f := id) ⟨rfl, rfl, rfl, rfl⟩
    ⟨rfl, rfl, rfl, fun _ _ => rfl, fun q hq => Function.update_of_ne hq _ _⟩ h.window (fun _ => rfl)
    (fun _ => ⟨rfl, rfl⟩) ⟨hproc.rest, ?_, nofun, fun _ => hopen, trivial⟩ fun q y hy => ?_⟩
  · exact Function.update_self _ _ _
  · exact hy.congr rfl rfl rfl rfl rfl

/-- A process that runs in `pipewrite`. -/
theorem Holds.runWrite (h : Holds k a) (hp : k.pc p = .write bs n false) :
    ∃ a', channel.Path a (writeLoop p n [] bs k).1.toList a' ∧ Holds (writeLoop p n [] bs k).2 a' := by
  have hproc := h.process p
  rw [hp] at hproc
  have hopen := hproc.writes rfl
  have hwin₀ : Window k.data k.nread k.nwrite (a.queue ++ []) := by
    rw [List.append_nil]
    exact h.window
  obtain ⟨us, vs, data, nwrite, rfl, hwin, hrun⟩ := @writeLoop_eq k p n bs a.queue [] hwin₀
  rw [List.nil_append] at hwin hrun
  have hrest : a.rest p = some (us ++ vs, n) := hproc.rest
  have hfull : a.queue.length = PIPESIZE → (a.queue ++ us).length = PIPESIZE := fun h0 => by
    have hlen := hwin.length
    rw [List.length_append] at hlen ⊢
    omega
  dsimp only at hrun
  rcases hrun with ⟨rfl, hrun⟩ | ⟨hvs, hlen, hfail, hrun⟩ | ⟨hvs, hlen, hread, hkilled, hrun⟩
  · rw [List.append_nil] at hrest
    rw [hrun]
    refine ⟨_, .single (A := channel) (Channel.Step.finish hrest hwin.length),
      h.advance (f := Pc.wakeReader) ⟨rfl, rfl, rfl, rfl⟩
        ⟨rfl, rfl, rfl, fun q hq => Function.update_of_ne hq _ _, fun _ _ => rfl⟩ hwin (fun _ => rfl)
        (fun y => ⟨rest_wakeReader y, want_wakeReader y⟩) ⟨?_, hproc.want, nofun, nofun, trivial⟩
        fun q y hy => hy.wakeReader hfull rfl rfl⟩
    exact Function.update_self _ _ _
  · rw [← h.readopen, ← h.killed] at hfail
    rw [hrun]
    refine ⟨_, .single (A := channel) (Channel.Step.fail hrest hvs hlen hfail),
      h.advance (f := id) ⟨rfl, rfl, rfl, rfl⟩
        ⟨rfl, rfl, rfl, fun q hq => Function.update_of_ne hq _ _, fun _ _ => rfl⟩ hwin (fun _ => rfl)
        (fun _ => ⟨rfl, rfl⟩) ⟨?_, hproc.want, nofun, nofun, trivial⟩ fun q y hy => ?_⟩
    · exact Function.update_self _ _ _
    · -- nobody is woken up, but now a killed process has left the channel full
      cases y with
      | user => trivial
      | write rest n asleep =>
        cases asleep with
        | false => trivial
        | true => exact ⟨hfull hy.1, hy.2⟩
      | read n asleep =>
        cases asleep with
        | false => trivial
        | true => exact ⟨hy.1, hy.2.1, .inr rfl⟩
  · rw [← h.readopen] at hread
    rw [← h.killed] at hkilled
    rw [hrun]
    refine ⟨_, .single (A := channel) (Channel.Step.wait hrest hvs hlen hread hkilled),
      h.advance (f := Pc.wakeReader) ⟨rfl, rfl, rfl, rfl⟩
        ⟨rfl, rfl, rfl, fun q hq => Function.update_of_ne hq _ _, fun _ _ => rfl⟩ hwin (fun _ => rfl)
        (fun y => ⟨rest_wakeReader y, want_wakeReader y⟩)
        ⟨?_, hproc.want, fun _ => hopen, nofun, hlen, hread, hkilled⟩
        fun q y hy => hy.wakeReader hfull rfl rfl⟩
    exact Function.update_self _ _ _

/-- A process that runs in `piperead`. -/
theorem Holds.runRead (h : Holds k a) (hp : k.pc p = .read n false) :
    ∃ a', channel.Path a (readLoop k p n).1.toList a' ∧ Holds (readLoop k p n).2 a' := by
  have hproc := h.process p
  rw [hp] at hproc
  have hread := hproc.reads rfl
  have hempty := h.window.empty_iff PIPESIZE_lt
  rw [readLoop]
  by_cases hwait : k.nread = k.nwrite ∧ k.writeopen = true
  · have hwrite := h.writeopen.trans hwait.2
    rw [if_pos hwait]
    by_cases hkilled : k.killed p = true
    · rw [if_pos hkilled]
      rw [← h.killed] at hkilled
      refine ⟨_, .single (A := channel) (Channel.Step.giveUp hproc.want (hempty.mp hwait.1) hwrite hkilled),
        h.advance (f := id) ⟨rfl, rfl, rfl, rfl⟩
          ⟨rfl, rfl, rfl, fun _ _ => rfl, fun q hq => Function.update_of_ne hq _ _⟩ h.window (fun _ => rfl)
          (fun _ => ⟨rfl, rfl⟩) ⟨hproc.rest, ?_, nofun, nofun, trivial⟩ fun q y hy => ?_⟩
      · exact Function.update_self _ _ _
      · exact hy.congr rfl rfl rfl rfl rfl
    · rw [if_neg hkilled]
      rw [Bool.not_eq_true, ← h.killed] at hkilled
      exact ⟨a, .refl, h.advance (f := id) ⟨rfl, rfl, rfl, rfl⟩
        ⟨rfl, rfl, rfl, fun _ _ => rfl, fun _ _ => rfl⟩ h.window (fun _ => rfl) (fun _ => ⟨rfl, rfl⟩)
        ⟨hproc.rest, hproc.want, nofun, fun _ => hread, hwrite, hkilled, .inl (hempty.mp hwait.1)⟩
        fun q y hy => hy⟩
  · rw [if_neg hwait]
    have hready : a.queue ≠ [] ∨ a.writeopen = false := by
      rw [h.writeopen, ← Bool.not_eq_true, ← not_and_or, ← hempty]
      exact hwait
    obtain ⟨nread, hcopy, hwin⟩ := copyLoop_eq n h.window
    rw [hcopy]
    refine ⟨_, .single (A := channel) (Channel.Step.receive hproc.want hready),
      h.advance (f := Pc.wakeWriter) ⟨rfl, rfl, rfl, rfl⟩
        ⟨rfl, rfl, rfl, fun _ _ => rfl, fun q hq => Function.update_of_ne hq _ _⟩ hwin (fun _ => rfl)
        (fun y => ⟨rest_wakeWriter y, want_wakeWriter y⟩) ⟨hproc.rest, ?_, nofun, nofun, trivial⟩
        fun q y hy => hy.wakeWriter (fun h0 => ?_) rfl rfl rfl⟩
    · exact Function.update_self _ _ _
    · show a.queue.drop n = []
      rw [h0, List.drop_nil]

/-- A process that is killed does not sleep any more. -/
theorem Holds.kill (h : Holds k a) (p : Pid) :
    Holds { k with killed := Function.update k.killed p true, pc := Function.update k.pc p (k.pc p).wakeReader.wakeWriter }
      { a with killed := Function.update a.killed p true } := by
  refine ⟨h.window, h.readopen, h.writeopen, by rw [h.killed], h.freed, fun q => ?_⟩
  have hproc := h.process q
  show Process _ q (Function.update k.pc p (k.pc p).wakeReader.wakeWriter q)
  by_cases hqp : q = p
  · subst hqp
    rw [Function.update_self]
    refine hproc.other ?_ ?_ rfl rfl rfl rfl ?_
    · rw [rest_wakeWriter, rest_wakeReader]
    · rw [want_wakeWriter, want_wakeReader]
    · cases k.pc q <;> trivial
  · rw [Function.update_of_ne hqp]
    refine hproc.other rfl rfl rfl rfl rfl rfl ?_
    have hs := hproc.sleeps
    have hkilled : Function.update a.killed p true q = a.killed q := Function.update_of_ne hqp _ _
    unfold Sleeps at hs ⊢
    dsimp only
    rwa [hkilled]

/-- The page is freed when both ends are closed. -/
theorem Holds.free (h : Holds k a) :
    Holds (if k.readopen = false ∧ k.writeopen = false then { k with freed := true } else k) a := by
  split
  · rename_i hclosed
    exact { h with freed := fun _ => hclosed }
  · exact h

theorem Holds.closeWrite (h : Holds k a) (hp : ∀ p, (k.pc p).writes = false) :
    Holds (pipeclose k true) { a with writeopen := false } := by
  refine Holds.free (k := wakeReaders { k with writeopen := false }) ⟨h.window, h.readopen, rfl, h.killed,
    fun hfreed => ⟨(h.freed hfreed).1, rfl⟩, fun q => ?_⟩
  have hproc := h.process q
  have hq := hp q
  rw [writes_eq] at hq
  refine ⟨?_, ?_, fun hrest => ?_, fun hwant => hproc.reads ?_, ?_⟩
  · exact hproc.rest.trans (rest_wakeReader _).symm
  · exact hproc.want.trans (want_wakeReader _).symm
  · rw [wakeReaders, rest_wakeReader] at hrest
    rw [hrest] at hq
    cases hq
  · rwa [wakeReaders, want_wakeReader] at hwant
  · show Sleeps _ q (k.pc q).wakeReader
    cases hx : k.pc q with
    | user => trivial
    | read n asleep => trivial
    | write rest n asleep =>
      rw [hx] at hq
      cases hq

theorem Holds.closeRead (h : Holds k a) (hp : ∀ p, (k.pc p).reads = false) :
    Holds (pipeclose k false) { a with readopen := false } := by
  refine Holds.free (k := wakeWriters { k with readopen := false }) ⟨h.window, rfl, h.writeopen, h.killed,
    fun hfreed => ⟨rfl, (h.freed hfreed).2⟩, fun q => ?_⟩
  have hproc := h.process q
  have hq := hp q
  rw [reads_eq] at hq
  refine ⟨?_, ?_, fun hrest => hproc.writes ?_, fun hwant => ?_, ?_⟩
  · exact hproc.rest.trans (rest_wakeWriter _).symm
  · exact hproc.want.trans (want_wakeWriter _).symm
  · rwa [wakeWriters, rest_wakeWriter] at hrest
  · rw [wakeWriters, want_wakeWriter] at hwant
    rw [hwant] at hq
    cases hq
  · show Sleeps _ q (k.pc q).wakeWriter
    cases hx : k.pc q with
    | user => trivial
    | write rest n asleep => trivial
    | read n asleep =>
      rw [hx] at hq
      cases hq

/-! ### Runs -/

/-- Every step of a pipe is some steps of a channel. -/
theorem pipe_simulates : Simulates pipe channel Holds where
  init := by
    intro k hk
    refine ⟨⟨[], true, true, fun _ => none, fun _ => none, k.killed, false⟩,
      ⟨rfl, rfl, rfl, fun _ => rfl, fun _ => rfl, rfl⟩, ?_, hk.readopen.symm, hk.writeopen.symm, rfl,
      fun hfreed => ?_, fun p => ?_⟩
    · rw [hk.nread, hk.nwrite]
      exact Window.nil k.data 0
    · rw [hk.freed] at hfreed
      cases hfreed
    · rw [hk.user]
      exact ⟨rfl, rfl, nofun, nofun, trivial⟩
  step := by
    rintro k a o k' h ⟨e, -, hs⟩
    cases e with
    | write p bs =>
      rw [step] at hs
      split_ifs at hs with hp
      cases hs
      obtain ⟨a', hstep, hk'⟩ := h.write hp.1 hp.2
      exact ⟨a', .single hstep, hk'⟩
    | read p n =>
      rw [step] at hs
      split_ifs at hs with hp
      cases hs
      obtain ⟨a', hstep, hk'⟩ := h.read hp.1 hp.2
      exact ⟨a', .single hstep, hk'⟩
    | run p =>
      rw [step] at hs
      split at hs
      · rename_i rest n hp
        split_ifs at hs
        obtain ⟨a', hpath, hk'⟩ := h.runWrite hp
        rw [Except.ok.inj hs] at hpath hk'
        exact ⟨a', hpath, hk'⟩
      · rename_i n hp
        split_ifs at hs
        obtain ⟨a', hpath, hk'⟩ := h.runRead hp
        rw [Except.ok.inj hs] at hpath hk'
        exact ⟨a', hpath, hk'⟩
      · cases hs
    | kill p =>
      cases hs
      exact ⟨_, .single (A := channel) Channel.Step.kill, h.kill p⟩
    | close writable =>
      cases writable with
      | true =>
        rw [step] at hs
        split_ifs at hs with hp
        cases hs
        refine ⟨_, .single (A := channel) (Channel.Step.closeWrite (h.writeopen.trans hp.1) fun p => ?_),
          h.closeWrite hp.2⟩
        rw [(h.process p).rest]
        exact Option.not_isSome_iff_eq_none.mp (by rw [← writes_eq, hp.2 p]; nofun)
      | false =>
        rw [step] at hs
        split_ifs at hs with hp
        cases hs
        refine ⟨_, .single (A := channel) (Channel.Step.closeRead (h.readopen.trans hp.1) fun p => ?_),
          h.closeRead hp.2⟩
        rw [(h.process p).want]
        exact Option.not_isSome_iff_eq_none.mp (by rw [← reads_eq, hp.2 p]; nofun)

theorem sent_append (es fs : List Event) : sent (es ++ fs) = sent es ++ sent fs := by
  induction es with
  | nil => rfl
  | cons e es ih =>
    cases e with
    | put p bs r => rw [List.cons_append, sent, sent, ih, List.append_assoc]
    | write p bs => exact ih
    | read p n => exact ih
    | got p r => exact ih
    | close w => exact ih

theorem got_append (es fs : List Event) : got (es ++ fs) = got es ++ got fs := by
  induction es with
  | nil => rfl
  | cons e es ih =>
    cases e with
    | got p r =>
      cases r with
      | none => exact ih
      | some bs => rw [List.cons_append, got, got, ih, List.append_assoc]
    | put p bs r => exact ih
    | write p bs => exact ih
    | read p n => exact ih
    | close w => exact ih

/-- No byte is lost, doubled or overtaken, and a process that leaves a full channel shows it. -/
theorem channel_conserves (h : channel.Trace es a) : sent es = got es ++ a.queue ∧
    (a.left = true → ∃ p bs, .put p bs (some (-1)) ∈ es) := by
  refine h.history (I := fun es a => sent es = got es ++ a.queue ∧
    (a.left = true → ∃ p bs, .put p bs (some (-1)) ∈ es)) ?_ ?_
  · rintro a ⟨hqueue, -, -, -, -, hleft⟩
    exact ⟨hqueue.symm, fun h0 => absurd (hleft.symm.trans h0) (by decide)⟩
  · rintro es a o a' ⟨hsent, hleft⟩ hstep
    have hold : a.left = true → ∃ p bs, .put p bs (some (-1)) ∈ es ++ o.toList := fun h0 => by
      obtain ⟨p, bs, hmem⟩ := hleft h0
      exact ⟨p, bs, List.mem_append_left _ hmem⟩
    rw [sent_append, got_append, hsent]
    cases hstep with
    | finish => exact ⟨by simp [sent, got], hold⟩
    | wait => exact ⟨by simp [sent, got], hold⟩
    | fail =>
      exact ⟨by simp [sent, got], fun _ => ⟨_, _, List.mem_append_right _ (List.mem_singleton.mpr rfl)⟩⟩
    | receive => exact ⟨by simp [sent, got], hold⟩
    | write => exact ⟨by simp [sent, got], hold⟩
    | read => exact ⟨by simp [sent, got], hold⟩
    | giveUp => exact ⟨by simp [sent, got], hold⟩
    | kill => exact ⟨by simp [sent, got], hold⟩
    | closeWrite => exact ⟨by simp [sent, got], hold⟩
    | closeRead => exact ⟨by simp [sent, got], hold⟩

/-- What the processes see of a pipe they could see of a channel.  The bytes that have been put into the
    pipe are those that have been read, in this order, and then those that it still holds, which are at
    most `PIPESIZE`. -/
theorem pipe_is_fifo (h : pipe.Trace es k) : ∃ a, channel.Trace es a ∧ Holds k a ∧
    sent es = got es ++ a.queue ∧ a.queue.length ≤ PIPESIZE := by
  obtain ⟨a, ha, hk⟩ := pipe_simulates.trace h
  exact ⟨a, ha, hk, (channel_conserves ha).1, hk.window.length⟩

/-- In every run a process sleeps in `pipewrite` only while the pipe is full and its read end is open, and
    in `piperead` only while its write end is open and it is empty, unless a call of `pipewrite` has given
    up: this one does not wake the readers.  No process that has been killed sleeps, and no step uses a
    pipe that has been freed. -/
theorem pipe_sleepers (h : pipe.Trace es k) :
    (∀ p bs n, k.pc p = .write bs n true → full k = true ∧ k.readopen = true ∧ k.killed p = false) ∧
    (∀ p n, k.pc p = .read n true → k.writeopen = true ∧ k.killed p = false ∧
      (k.nread = k.nwrite ∨ ∃ q bs, .put q bs (some (-1)) ∈ es)) ∧
    ∀ e, step k e ≠ .error .freed := by
  obtain ⟨a, ha, hk⟩ := pipe_simulates.trace h
  refine ⟨fun p bs n hp => ?_, fun p n hp => ?_, fun e => ?_⟩
  · have hs := (hk.process p).sleeps
    rw [hp] at hs
    exact ⟨(full_iff hk.window).mpr hs.1, hk.readopen ▸ hs.2.1, hk.killed ▸ hs.2.2⟩
  · have hs := (hk.process p).sleeps
    rw [hp] at hs
    refine ⟨hk.writeopen ▸ hs.1, hk.killed ▸ hs.2.1, hs.2.2.imp (fun hempty => ?_) fun hleft => ?_⟩
    · exact (hk.window.empty_iff PIPESIZE_lt).mpr hempty
    · exact (channel_conserves ha).2 hleft
  · have hopen : k.freed = true → k.readopen = false ∧ k.writeopen = false := hk.freed
    cases e with
    | write p bs =>
      rw [step]
      split <;> nofun
    | read p n =>
      rw [step]
      split <;> nofun
    | kill p => nofun
    | run p =>
      have hproc := hk.process p
      rw [step]
      split
      · rename_i rest n hp
        rw [hp] at hproc
        have hwrite := hk.writeopen.symm.trans (hproc.writes rfl)
        rw [if_neg fun hfreed => by rw [(hopen hfreed).2] at hwrite; cases hwrite]
        nofun
      · rename_i n hp
        rw [hp] at hproc
        have hread := hk.readopen.symm.trans (hproc.reads rfl)
        rw [if_neg fun hfreed => by rw [(hopen hfreed).1] at hread; cases hread]
        nofun
      · nofun
    | close writable =>
      cases writable with
      | true =>
        rw [step]
        split_ifs with hp hfreed
        · exact absurd ((hopen hfreed).2.symm.trans hp.1) (by decide)
        · nofun
        · nofun
      | false =>
        rw [step]
        split_ifs with hp hfreed
        · exact absurd ((hopen hfreed).1.symm.trans hp.1) (by decide)
        · nofun
        · nofun

/-! ### Two runs -/

/-- A new pipe. -/
def newPipe : Pipe where
  data _ := 0
  killed _ := false
  pc _ := .user

theorem newPipe_trace : pipe.Trace [] newPipe := .start ⟨rfl, rfl, rfl, rfl, rfl, fun _ => rfl⟩

/-- Of three bytes that have been written two are read. -/
theorem pipe_is_fifo_three : ∃ es k, pipe.Trace es k ∧ ∃ a, channel.Trace es a ∧ got es = [1, 2] ∧
    sent es = got es ++ a.queue := by
  have htest : runTest step (fun es _ => decide (got es = [1, 2])) [] newPipe
      [.write 0 [1, 2, 3], .run 0, .read 1 2, .run 1] = true := by decide +kernel
  obtain ⟨es, k, hrun, hend⟩ := newPipe_trace.of_runTest (fun _ _ _ => trivial) htest
  obtain ⟨a, ha, -, hsent, -⟩ := pipe_is_fifo hrun
  exact ⟨es, k, hrun, a, ha, of_decide_eq_true hend, hsent⟩

/-- A reader waits for a writer, which is killed when it has filled the pipe: the reader goes on
    sleeping. -/
theorem pipe_sleepers_left : ∃ es, ∃ k : Pipe, pipe.Trace es k ∧ k.pc 0 = .read 1 true ∧
    k.nread ≠ k.nwrite ∧ ∃ q bs, .put q bs (some (-1)) ∈ es := by
  have htest : runTest step (fun _ k => decide (k.pc 0 = .read 1 true ∧ k.nread ≠ k.nwrite)) [] newPipe
      [.read 0 1, .run 0, .write 1 (List.replicate 513 0), .kill 1, .run 1] = true := by decide +kernel
  obtain ⟨es, k, hrun, hend⟩ := newPipe_trace.of_runTest (fun _ _ _ => trivial) htest
  obtain ⟨hpc, hne⟩ := of_decide_eq_true hend
  exact ⟨es, k, hrun, hpc, hne, ((pipe_sleepers hrun).2.1 0 1 hpc).2.2.resolve_left hne⟩

end Xv6.Ipc
