import Xv6.Thread.Calls

namespace Xv6.Thread

open Xv6.Lib

/-!
# Threads — what a step assigns to a slot

The fields of a slot that say what it is used for are its state, its parent, the main thread, the
thread that may join it, its return value and whether it is a thread.  `Assign` lists the assignments to these
fields, each with the call that makes it; `step_assigned` shows that every step of the machine is
a sequence of them.  Nothing is assumed about the lists of threads.
-/

/-- These fields of a slot. -/
structure Core where
  state : ProcState
  parent : Option Slot
  mainThread : Option Slot
  joinThread : Option Slot
  retval : Nat
  isThread : Bool

/-- The fields of a slot. -/
def Proc.core (q : Proc) : Core where
  state := q.state
  parent := q.parent
  mainThread := q.mainThread
  joinThread := q.joinThread
  retval := q.retval
  isThread := q.isThread

/-- The fields of the slots of the table. -/
def Kernel.core (k : Kernel) (i : Slot) : Core := (k.proc i).core

/-- The last steps of `fork` and `thread_create`. -/
def Step.creates : Step → Bool
  | .forkCopy none | .forkRun | .createFinish _ => true
  | _ => false

/-- The running process and init. -/
def Kernel.globals (k : Kernel) : Option Slot × Option Slot := (k.cpuProc, k.initproc)

/-- The assignments that a step `e` of the machine `k` makes to the slot `p`. -/
inductive Assign (k : Kernel) (e : Step) (p : Slot) : Core → Core → Prop
  /-- `wakeup` and `kill` make a process that sleeps runnable. -/
  | wake (x : Core) (h : x.state = .SLEEPING) : Assign k e p x { x with state := .RUNNABLE }
  /-- `allocproc` takes the first unused slot. -/
  | alloc (x : Core) (he : e.allocates = true) (hp : firstUnused k = some p) :
      Assign k e p x { x with state := .EMBRYO, mainThread := some p, isThread := false }
  /-- `allocproc` gives it back when there is no memory for the kernel stack. -/
  | abort (x : Core) (he : e.allocates = true) (hp : firstUnused k = some p) :
      Assign k e p x { x with state := .UNUSED }
  /-- `fork` and `thread_create` give their new slot back. -/
  | drop (x : Core) (c : Slot) (hc : k.cpuProc = some c) (hnew : (k.call c).newSlot = some p)
      (he : e.creates = true ∧ e ≠ .forkRun) : Assign k e p x { x with state := .UNUSED }
  /-- `fork` copies the process. -/
  | copy (x : Core) (c : Slot) (hc : k.cpuProc = some c) (hcall : k.call c = .fork p)
      (he : ∃ d, e = .forkCopy (some d)) : Assign k e p x { x with parent := some c }
  /-- `fork` starts the child. -/
  | start (x : Core) (c : Slot) (hc : k.cpuProc = some c) (hcall : k.call c = .forkCopied p)
      (he : e = .forkRun) : Assign k e p x { x with state := .RUNNABLE }
  /-- `thread_create` makes the new slot a slot of the process. -/
  | attach (x : Core) (c m : Slot) (hc : k.cpuProc = some c) (hcall : k.call c = .create m p)
      (he : ∃ ok, e = .createFinish ok) :
      Assign k e p x { x with parent := (k.proc m).parent, mainThread := some m }
  /-- `thread_create` starts the thread. -/
  | link (x : Core) (c m : Slot) (hc : k.cpuProc = some c) (hcall : k.call c = .create m p)
      (he : ∃ ok, e = .createFinish ok) (hx : x.parent = (k.proc m).parent) :
      Assign k e p x { x with state := .RUNNABLE, isThread := true, joinThread := some c }
  /-- `exit` and `exec` release the other threads, `thread_join` a zombie. -/
  | free (x : Core)
      (he : ((e = .exit ∨ e = .execFinish) ∧ k.cpuProc ≠ some p) ∨
        (e.joins = true ∧ (k.proc p).state = .ZOMBIE)) :
      Assign k e p x
        { x with
          state := .UNUSED, parent := none, mainThread := none, joinThread := none
          isThread := false }
  /-- `wait` reaps a zombie. -/
  | reap (x : Core) (c : Slot) (he : e = .wait) (hc : k.cpuProc = some c)
      (hz : zombieChild k c = some p) : Assign k e p x { x with state := .UNUSED, parent := none }
  /-- `exit` and `thread_exit` pass children to init. -/
  | passOn (x : Core) (c : Slot) (he : e = .exit ∨ e = .threadExit) (hc : k.cpuProc = some c)
      (hp : x.parent = some c) : Assign k e p x { x with parent := k.initproc }
  /-- The running process ends. -/
  | die (x : Core) (r : Nat) (hc : k.cpuProc = some p)
      (he : (e = .exit ∧ k.call p = .exit) ∨ (e = .threadExit ∧ k.call p = .threadExit r)) :
      Assign k e p x { x with state := .ZOMBIE, retval := r }
  /-- The caller of `exec` is the process from now on. -/
  | replace (x : Core) (he : e = .execFinish) (hc : k.cpuProc = some p) :
      Assign k e p x { x with mainThread := some p, isThread := false }
  /-- The running process sleeps or yields; the step does nothing else. -/
  | rest (st : ProcState) (hc : k.cpuProc = some p) (hst : st = .SLEEPING ∨ st = .RUNNABLE) :
      Assign k e p (k.core p) { k.core p with state := st }
  /-- The scheduler starts a process. -/
  | run (x : Core) (he : e = .schedule) (h : x.state = .RUNNABLE) :
      Assign k e p x { x with state := .RUNNING }

/-- The step `e` of the machine `k`, or a part of it that has led to `k₁`, is a sequence of
    assignments in the slot `p`. -/
def Assigned (k : Kernel) (e : Step) (p : Slot) (k₁ : Kernel) : Prop :=
  Relation.ReflTransGen (Assign k e p) (k.core p) (k₁.core p)

variable {k k' k₁ : Kernel} {c m np p q : Slot} {e : Step}

/-! ### Assignments -/

theorem Assigned.same (h : k'.proc = k.proc) : Assigned k e p k' := by
  have hcore : k'.core p = k.core p := by rw [Kernel.core, Kernel.core, h]
  rw [Assigned, hcore]

/-- An assignment to the fields of one slot. -/
theorem Assigned.setProc {f : Proc → Proc} (h : Assigned k e p k₁)
    (hf : p = q → Assign k e p (k₁.core p) (f (k₁.proc p)).core) :
    Assigned k e p (k₁.setProc q f) := by
  by_cases hpq : p = q
  · refine Relation.ReflTransGen.tail h ?_
    have hcore : (k₁.setProc q f).core p = (f (k₁.proc p)).core := by
      subst hpq
      rw [Kernel.core, setProc_self]
    rw [hcore]
    exact hf hpq
  · have hcore : (k₁.setProc q f).core p = k₁.core p := by
      rw [Kernel.core, setProc_other hpq, Kernel.core]
    rw [Assigned, hcore]
    exact h

/-- An assignment to other fields. -/
theorem Assigned.minor {f : Proc → Proc} (h : Assigned k e p k₁)
    (hf : ∀ x, (f x).core = x.core) : Assigned k e p (k₁.setProc q f) := by
  have hcore : (k₁.setProc q f).core p = k₁.core p := by
    by_cases hpq : p = q
    · subst hpq
      rw [Kernel.core, setProc_self, hf, Kernel.core]
    · rw [Kernel.core, setProc_other hpq, Kernel.core]
  rw [Assigned, hcore]
  exact h

theorem Assigned.setCall (h : Assigned k e p k₁) (x : Call) : Assigned k e p (k₁.setCall q x) := h

theorem Assigned.setWalk (h : Assigned k e p k₁) (w : Walk) : Assigned k e p (k₁.setWalk q w) := h

theorem Assigned.ret (h : Assigned k e p k₁) (r : Int) : Assigned k e p (k₁.ret q r) := by
  refine Assigned.setCall ?_ .user
  exact h.minor fun _ => rfl

theorem Assigned.wakeup1 (h : Assigned k e p k₁) (chan : Option Chan) :
    Assigned k e p (wakeup1 k₁ chan) := by
  have hcore : (Thread.wakeup1 k₁ chan).core p = (wakeOne chan (k₁.proc p)).core := rfl
  rw [Assigned, hcore, wakeOne]
  split
  · rename_i hw
    exact Relation.ReflTransGen.tail h (.wake _ hw.1)
  · exact h

/-- The loop of `exit` and `thread_exit` over the children of `c`. -/
theorem Assigned.reparent (h : Assigned k e p k₁) (hc : k.cpuProc = some c)
    (he : e = .exit ∨ e = .threadExit) (hinit : k₁.initproc = k.initproc) :
    Assigned k e p (reparent k₁ c) := by
  have hfirst : Assigned k e p { k₁ with proc := fun i => if (k₁.proc i).parent = some c then
      { k₁.proc i with parent := k₁.initproc } else k₁.proc i } := by
    show Relation.ReflTransGen _ _ (Proc.core (if (k₁.proc p).parent = some c then _ else _))
    split
    · rename_i hp
      refine Relation.ReflTransGen.tail h ?_
      rw [hinit]
      exact .passOn _ c he hc hp
    · exact h
  rw [Thread.reparent]
  split
  · exact hfirst.wakeup1 _
  · exact hfirst

theorem Assigned.zombie {r : Nat} (h : Assigned k e p k₁) (hc : k.cpuProc = some c)
    (he : (e = .exit ∧ k.call c = .exit) ∨ (e = .threadExit ∧ k.call c = .threadExit r)) :
    Assigned k e p (zombie k₁ c r) := by
  have hcpu : Assigned k e p { k₁ with cpuProc := none } := h
  refine Assigned.setWalk (Assigned.setCall ?_ .user) .idle
  refine hcpu.setProc fun hpc => ?_
  subst hpc
  exact .die _ r hc he

theorem Assigned.freeThread (h : Assigned k e p k₁)
    (he : p = q → ((e = .exit ∨ e = .execFinish) ∧ k.cpuProc ≠ some p) ∨
      (e.joins = true ∧ (k.proc p).state = .ZOMBIE)) :
    Assigned k e p (freeThread k₁ q) := by
  refine Assigned.setWalk (Assigned.setCall ?_ .user) .idle
  exact h.setProc fun hpq => .free _ (he hpq)

/-- The loop that releases the other threads of the process of `c`. -/
theorem Assigned.freeThreads {cond : Kernel → Slot → Bool} {n : Nat} {o : Option Slot}
    (h : Assigned k e p k₁) (he : e = .exit ∨ e = .execFinish) (hc : k.cpuProc = some c)
    (hcond : ∀ k, cond k c = false) (hs : freeThreads cond n k₁ o = .ok k') :
    Assigned k e p k' := by
  induction n generalizing k₁ o with
  | zero =>
    cases o with
    | none => cases hs; exact h
    | some q => cases hs
  | succ n ih =>
    cases o with
    | none => cases hs; exact h
    | some q =>
      rw [Thread.freeThreads] at hs
      refine ih ?_ hs
      split
      · rename_i hq
        refine h.freeThread fun hpq => .inl ⟨he, fun hcp => ?_⟩
        have hcq : c = q := (Option.some.inj (hc.symm.trans hcp)).trans hpq
        rw [← hcq, hcond] at hq
        cases hq
      · exact h

theorem globals_freeThreads {cond : Kernel → Slot → Bool} {n : Nat} {o : Option Slot}
    (hs : freeThreads cond n k o = .ok k') : k'.globals = k.globals := by
  induction n generalizing k o with
  | zero =>
    cases o with
    | none => cases hs; rfl
    | some q => cases hs
  | succ n ih =>
    cases o with
    | none => cases hs; rfl
    | some q =>
      rw [freeThreads] at hs
      rw [ih hs]
      split <;> rfl

theorem Assigned.setSz (h : Assigned k e p k₁) (sz : Nat) (xs : List Slot) :
    Assigned k e p (setSz k₁ sz xs) := by
  have hcore : (Thread.setSz k₁ sz xs).core p = k₁.core p := by
    rw [setSz_eq]
    show Proc.core (if p ∈ xs then _ else _) = _
    split <;> rfl
  rw [Assigned, hcore]
  exact h

theorem Assigned.closeFile {fd : Nat} (h : Assigned k e p k₁)
    (hs : closeFile k₁ q fd = .ok k') : Assigned k e p k' := by
  obtain ⟨f, hf, rfl⟩ := closeFile_ok hs
  refine h.minor fun x => ?_
  obtain ⟨o, w, hx⟩ := hf x
  rw [hx]
  rfl

/-! ### The steps -/

theorem Assigned.allocproc {next : Slot → Call} {ok : Bool} (he : e.allocates = true) :
    Assigned k e p (allocproc k c next ok) := by
  rw [Thread.allocproc]
  split
  · exact (Assigned.same rfl).ret _
  · rename_i q hq
    have hpid : Assigned k e p { k with nextpid := k.nextpid + 1 } := .same rfl
    have hinit : Assigned k e p (initSlot k q) := hpid.setProc fun hpq => by
      subst hpq
      exact .alloc _ he hq
    split
    · refine Assigned.setCall ?_ _
      exact hinit.minor fun _ => rfl
    · refine Assigned.ret ?_ _
      refine hinit.setProc fun hpq => ?_
      subst hpq
      exact .abort _ he hq

theorem Assigned.forkCopy {dir : Option Nat} (hc : k.cpuProc = some c)
    (hcall : k.call c = .fork np) (hs : Thread.forkCopy k c np dir = .ok k') :
    Assigned k (.forkCopy dir) p k' := by
  cases dir with
  | none =>
    cases hs
    refine Assigned.ret ?_ _
    refine (Assigned.same rfl).setProc fun hp => ?_
    subst hp
    exact .drop _ c hc (by rw [hcall]; rfl) ⟨rfl, by simp⟩
  | some d =>
    obtain ⟨k₁, hk₁, hs⟩ := bind_eq_ok.mp hs
    obtain ⟨_, rfl⟩ := newDir_ok hk₁
    obtain ⟨m, _, hs⟩ := bind_eq_ok.mp hs
    cases hs
    have hdir : Assigned k (.forkCopy (some d)) p { k with dirs := d :: k.dirs } := .same rfl
    refine Assigned.setCall ?_ _
    refine hdir.setProc fun hp => ?_
    subst hp
    exact .copy _ c hc hcall ⟨d, rfl⟩

theorem parent_setProc {f : Proc → Proc} (hf : ∀ x, (f x).parent = x.parent) :
    ((k.setProc q f).proc p).parent = (k.proc p).parent := by
  by_cases hp : p = q
  · subst hp; rw [setProc_self, hf]
  · rw [setProc_other hp]

theorem Assigned.linkThread {sz : Nat} (hc : k.cpuProc = some c)
    (hcall : k.call c = .create m np) (he : ∃ ok, e = .createFinish ok)
    (hpar : (k₁.proc np).parent = (k.proc m).parent) (h : Assigned k e p k₁)
    (hs : linkThread k₁ c np sz = .ok k') : Assigned k e p k' := by
  rw [Thread.linkThread] at hs
  split at hs
  · cases hs
  · rename_i z _
    obtain ⟨m, _, hs⟩ := bind_eq_ok.mp hs
    split at hs
    · cases hs
    · cases hs
      refine Assigned.setSz ?_ _ _
      have hfiles := h.minor (q := np) (f := fun q => copyFiles (k₁.proc c) q) fun _ => rfl
      have hlast := hfiles.minor (q := z) (f := fun q => { q with nextThread := some np }) fun _ => rfl
      refine hlast.setProc fun hp => ?_
      subst hp
      refine .link _ c _ hc hcall he ?_
      show (((k₁.setProc p fun q => copyFiles (k₁.proc c) q).setProc z fun q =>
        { q with nextThread := some p }).proc p).parent = _
      rw [parent_setProc (by exact fun _ => rfl), parent_setProc (by exact fun _ => rfl), hpar]

theorem Assigned.createFinish {ok : Bool} (hc : k.cpuProc = some c)
    (hcall : k.call c = .create m np) (hs : Thread.createFinish k c m np ok = .ok k') :
    Assigned k (.createFinish ok) p k' := by
  have hnew : (k.call c).newSlot = some np := by rw [hcall]; rfl
  have hattach : Assigned k (.createFinish ok) p (attach k c m np) := by
    have hnum : Assigned k (.createFinish ok) p (k.setProc m fun q => { q with createNum := q.createNum + 1 }) :=
      (Assigned.same rfl).minor fun _ => rfl
    have hparent : ((k.setProc m fun q => { q with createNum := q.createNum + 1 }).proc m).parent =
        (k.proc m).parent := by rw [setProc_self]
    rw [attach]
    refine hnum.setProc fun hp => ?_
    subst hp
    have hassign := Assign.attach (e := .createFinish ok) ((k.setProc m fun q =>
      { q with createNum := q.createNum + 1 }).core p) c m hc hcall ⟨ok, rfl⟩
    rw [← hparent] at hassign
    exact hassign
  rw [Thread.createFinish] at hs
  split at hs
  · cases hs; exact hattach.ret _
  · generalize stackSize k m ok = newsz at hs
    have hnp : Assigned k (.createFinish ok) p
        ((attach k c m np).setProc np fun q => { q with sz := newsz }) :=
      hattach.minor fun _ => rfl
    have hsize : Assigned k (.createFinish ok) p (((attach k c m np).setProc np fun q =>
        { q with sz := newsz }).setProc m fun q => { q with sz := newsz }) :=
      hnp.minor fun _ => rfl
    split at hs
    · cases hs
      refine Assigned.ret ?_ (-1)
      refine hsize.setProc fun hp => ?_
      subst hp
      exact .drop _ c hc hnew ⟨rfl, by simp⟩
    · refine Assigned.linkThread hc hcall ⟨ok, rfl⟩ ?_ (hsize.ret 0) hs
      rw [Kernel.ret, proc_setCall, parent_setProc (by exact fun _ => rfl),
        parent_setProc (by exact fun _ => rfl), parent_setProc (by exact fun _ => rfl), attach,
        setProc_self, setProc_self]

theorem Assigned.exitBegin (hs : exitBegin k c = .ok k') : Assigned k e p k' := by
  rw [Thread.exitBegin] at hs
  split at hs
  · cases hs
  · obtain ⟨m, _, hs⟩ := bind_eq_ok.mp hs
    cases hs
    exact .same rfl

theorem Assigned.closeFiles (hs : closeFiles k c = .ok k') : Assigned k e p k' := by
  rw [Thread.closeFiles] at hs
  split at hs
  · cases hs
  · cases hs
  · cases hs; exact .same rfl
  · obtain ⟨k₁, hk₁, hs⟩ := bind_eq_ok.mp hs
    cases hs
    exact (Assigned.closeFile (.same rfl) hk₁ :)
  · split at hs <;> (cases hs; exact .same rfl)
  · obtain ⟨k₁, hk₁, hs⟩ := bind_eq_ok.mp hs
    cases hs
    exact (Assigned.closeFile (.same rfl) hk₁ :)

theorem Assigned.exit (hc : k.cpuProc = some c) (hcall : k.call c = .exit)
    (hs : Thread.exit k c = .ok k') : Assigned k .exit p k' := by
  obtain ⟨k₁, hk₁, hs⟩ := bind_eq_ok.mp hs
  cases hs
  have hfree : Assigned k .exit p k₁ :=
    .freeThreads (.same rfl) (.inl rfl) hc (fun k => by simp [otherThread]) hk₁
  have hinit : k₁.initproc = k.initproc := congrArg Prod.snd (globals_freeThreads hk₁)
  exact ((hfree.wakeup1 _).reparent hc (.inl rfl) hinit).zombie hc (.inl ⟨rfl, hcall⟩)

theorem Assigned.wait (hc : k.cpuProc = some c) (hs : Thread.wait k c = .ok k') :
    Assigned k .wait p k' := by
  rw [Thread.wait] at hs
  split at hs
  · rename_i q hq
    obtain ⟨m, _, hs⟩ := bind_eq_ok.mp hs
    obtain ⟨k₁, hk₁, hs⟩ := bind_eq_ok.mp hs
    obtain ⟨d, _, rfl⟩ := freevm_ok hk₁
    cases hs
    have hdir : Assigned k .wait p { k with dirs := k.dirs.filter fun e' => e' ≠ d } := .same rfl
    refine Assigned.ret ?_ _
    refine hdir.setProc fun hp => ?_
    subst hp
    exact .reap _ c rfl hc hq
  · split at hs
    · cases hs; exact (Assigned.same rfl).ret _
    · cases hs
      have hcpu : Assigned k .wait p { k.setCall c .wait with cpuProc := none } := .same rfl
      refine hcpu.setProc fun hp => ?_
      subst hp
      exact .rest .SLEEPING hc (.inl rfl)

theorem Assigned.moveCurrent {prev : Slot} (h : Assigned k e p k₁)
    (hs : moveCurrent k₁ q prev = .ok k') : Assigned k e p k' := by
  obtain ⟨m, _, hs⟩ := bind_eq_ok.mp hs
  split at hs
  · cases hs; exact h.minor fun _ => rfl
  · cases hs; exact h

theorem Assigned.unlinkLoop {n : Nat} {prev prev' : Slot} (h : Assigned k e p k₁)
    (hs : unlinkLoop q n k₁ prev = .ok (k', prev')) : Assigned k e p k' := by
  induction n generalizing k₁ prev with
  | zero => cases hs
  | succ n ih =>
    rw [Thread.unlinkLoop] at hs
    split at hs
    · cases hs; exact h
    · obtain ⟨x, _, hs⟩ := bind_eq_ok.mp hs
      refine ih ?_ hs
      exact h.minor fun _ => rfl

theorem Assigned.unlinkThread (h : Assigned k e p k₁) (hs : unlinkThread k₁ m q = .ok k') :
    Assigned k e p k' := by
  rw [Thread.unlinkThread] at hs
  split at hs
  · refine Assigned.moveCurrent ?_ hs
    exact h.minor fun _ => rfl
  · obtain ⟨x, _, hs⟩ := bind_eq_ok.mp hs
    obtain ⟨⟨k₂, prev⟩, hk₂, hs⟩ := bind_eq_ok.mp hs
    exact (h.unlinkLoop hk₂).moveCurrent hs

theorem Assigned.joinCheck (hc : k.cpuProc = some c) (he : e.joins = true)
    (hs : Thread.joinCheck k c m q = .ok k') : Assigned k e p k' := by
  rw [Thread.joinCheck] at hs
  split at hs
  · cases hs
    have hcpu : Assigned k e p { k.setCall c (.join m q) with cpuProc := none } := .same rfl
    refine hcpu.setProc fun hp => ?_
    subst hp
    exact .rest .SLEEPING hc (.inl rfl)
  · rename_i hz
    obtain ⟨k₁, hk₁, hs⟩ := bind_eq_ok.mp hs
    cases hs
    have hval : Assigned k e p (k.setProc c fun x => { x with joinVal := (k.proc q).retval }) :=
      (Assigned.same rfl).minor fun _ => rfl
    refine ((hval.unlinkThread hk₁).freeThread fun hp => .inr ⟨he, ?_⟩).ret 0
    subst hp
    exact not_not.mp hz

theorem Assigned.execCommit {d sz : Nat} (hs : execCommit k c d sz = .ok k') :
    Assigned k e p k' := by
  rw [Thread.execCommit] at hs
  split at hs
  · cases hs
  · obtain ⟨k₁, hk₁, hs⟩ := bind_eq_ok.mp hs
    obtain ⟨_, rfl⟩ := newDir_ok hk₁
    obtain ⟨m, _, hs⟩ := bind_eq_ok.mp hs
    have hdir : Assigned k e p { k with dirs := d :: k.dirs } := .same rfl
    split at hs
    · cases hs
      refine Assigned.ret ?_ _
      exact hdir.minor fun _ => rfl
    · cases hs
      refine Assigned.setWalk (Assigned.setCall ?_ _) _
      exact hdir.minor fun _ => rfl

theorem Assigned.execFinish {old : Option Nat} (hc : k.cpuProc = some c)
    (hs : Thread.execFinish k c old = .ok k') : Assigned k .execFinish p k' := by
  obtain ⟨k₂, hk₂, hs⟩ := bind_eq_ok.mp hs
  obtain ⟨k₁, hk₁, hk₂⟩ := bind_eq_ok.mp hk₂
  cases hk₂
  obtain ⟨d, _, rfl⟩ := freevm_ok hs
  have hfree : Assigned k .execFinish p k₁ :=
    .freeThreads (.same rfl) (.inr rfl) hc (fun k => by simp) hk₁
  refine Assigned.setWalk (q := c) (Assigned.ret ?_ 0) .idle
  refine hfree.setProc fun hp => ?_
  subst hp
  exact .replace _ rfl hc

theorem Assigned.schedule (hs : Thread.schedule k = .ok k') : Assigned k .schedule p k' := by
  rw [Thread.schedule] at hs
  split at hs
  · cases hs
  · split at hs
    · cases hs; exact .same rfl
    · rename_i q _
      obtain ⟨m, _, hs⟩ := bind_eq_ok.mp hs
      obtain ⟨cur, _, hs⟩ := bind_eq_ok.mp hs
      split at hs
      · cases hs
      · rename_i t ht
        cases hs
        have hcpu : Assigned k .schedule p { k with cpuProc := some t, scan := q.val + 1 } :=
          .same rfl
        have hcur : Assigned k .schedule p ({ k with cpuProc := some t, scan := q.val + 1 }.setProc m
            fun q => { q with currentThread := some t }) := hcpu.minor fun _ => rfl
        refine hcur.setProc fun hp => ?_
        subst hp
        have hst : (k.proc p).state = .RUNNABLE := pickThread_runnable ht
        refine .run _ rfl ?_
        by_cases hpm : p = m
        · subst hpm
          rw [Kernel.core, setProc_self]
          exact hst
        · rw [Kernel.core, setProc_other hpm]
          exact hst

theorem Assigned.kill {pid : Int} : Assigned k e p (kill k c pid) := by
  rw [Thread.kill]
  split
  · exact (Assigned.same rfl).ret _
  · rename_i q _
    refine Assigned.ret ?_ _
    by_cases hst : (k.proc q).state = .SLEEPING
    · refine (Assigned.same rfl).setProc fun hp => ?_
      subst hp
      simp only [hst, if_true]
      exact .wake _ hst
    · have heq : (k.setProc q fun x => { x with
          killed := true, state := if x.state = .SLEEPING then .RUNNABLE else x.state }) =
          k.setProc q fun x => { x with killed := true } := by
        rw [Kernel.setProc, Kernel.setProc, if_neg hst]
      rw [heq]
      exact (Assigned.same rfl).minor fun _ => rfl

theorem Assigned.fdalloc {f : Nat} : Assigned k e p (fdalloc k c f) := by
  rw [Thread.fdalloc]
  split
  · exact (Assigned.same rfl).ret _
  · refine Assigned.ret ?_ _
    exact (Assigned.same rfl).minor fun _ => rfl

theorem Assigned.close {fd : Fin NOFILE} : Assigned k e p (close k c fd) := by
  rw [Thread.close]
  split
  · exact (Assigned.same rfl).ret _
  · refine Assigned.ret ?_ _
    exact (Assigned.same rfl).minor fun _ => rfl

/-- Every step is a sequence of these assignments. -/
theorem step_assigned (hs : step k e = .ok k') (p : Slot) : Assigned k e p k' := by
  rw [step] at hs
  split at hs
  · cases hs
  cases e with
  | forkAlloc ok =>
    obtain ⟨c, _, _, hs⟩ := byUser_ok hs
    cases hs
    exact .allocproc rfl
  | forkCopy dir =>
    obtain ⟨c, hc, hs⟩ := byProc_ok hs
    split at hs
    · exact .forkCopy hc ‹_› hs
    · cases hs
  | forkRun =>
    obtain ⟨c, hc, hs⟩ := byProc_ok hs
    split at hs
    · rename_i np hcall
      cases hs
      refine Assigned.ret ?_ _
      refine (Assigned.same rfl).setProc fun hp => ?_
      subst hp
      exact .start _ c hc hcall rfl
    · cases hs
  | createAlloc ok =>
    obtain ⟨c, _, _, hs⟩ := byUser_ok hs
    obtain ⟨m, _, hs⟩ := bind_eq_ok.mp hs
    cases hs
    exact .allocproc rfl
  | createFinish ok =>
    obtain ⟨c, hc, hs⟩ := byProc_ok hs
    split at hs
    · exact .createFinish hc ‹_› hs
    · cases hs
  | exitBegin =>
    obtain ⟨c, _, _, hs⟩ := byUser_ok hs
    exact .exitBegin hs
  | threadExitBegin r =>
    obtain ⟨c, _, _, hs⟩ := byUser_ok hs
    rw [threadExitBegin] at hs
    split at hs
    · exact .exitBegin hs
    · cases hs; exact .same rfl
  | closeFiles =>
    obtain ⟨c, _, hs⟩ := byProc_ok hs
    exact .closeFiles hs
  | exit =>
    obtain ⟨c, hc, hs⟩ := byProc_ok hs
    split at hs
    · rename_i hexit
      exact .exit hc hexit.1 hs
    · cases hs
  | threadExit =>
    obtain ⟨c, hc, hs⟩ := byProc_ok hs
    split at hs
    · rename_i r hcall
      split at hs
      · cases hs
        have hwake : Assigned k .threadExit p (wakeup1 k ((k.proc c).joinThread.map .proc)) :=
          (Assigned.same rfl).wakeup1 _
        exact (hwake.reparent hc (.inr rfl) rfl).zombie hc (.inr ⟨rfl, hcall⟩)
      · cases hs
    · cases hs
  | wait =>
    obtain ⟨c, hc, hs⟩ := byProc_ok hs
    split at hs
    · exact .wait hc hs
    · cases hs
  | threadJoin tid =>
    obtain ⟨c, hc, _, hs⟩ := byUser_ok hs
    obtain ⟨m, _, hs⟩ := bind_eq_ok.mp hs
    split at hs
    · cases hs
    · cases hs; exact (Assigned.same rfl).ret _
    · exact .joinCheck hc rfl hs
  | joinCheck =>
    obtain ⟨c, hc, hs⟩ := byProc_ok hs
    split at hs
    · exact .joinCheck hc rfl hs
    · cases hs
  | execCommit d sz =>
    obtain ⟨c, _, _, hs⟩ := byUser_ok hs
    exact .execCommit hs
  | execFinish =>
    obtain ⟨c, hc, hs⟩ := byProc_ok hs
    split at hs
    · split at hs
      · exact .execFinish hc hs
      · cases hs
    · cases hs
  | sbrk n =>
    obtain ⟨c, _, _, hs⟩ := byUser_ok hs
    rw [sbrk] at hs
    split at hs
    · cases hs; exact .same rfl
    · cases hs
  | growproc ok =>
    obtain ⟨c, _, hs⟩ := byProc_ok hs
    split at hs
    · obtain ⟨r, hr, hs⟩ := bind_eq_ok.mp hs
      rcases growproc_ok hr with rfl | ⟨m, sz, xs, _, _, _, rfl⟩
      · cases hs; exact (Assigned.same rfl).ret _
      · cases hs; exact ((Assigned.same rfl).setSz sz xs).ret _
    · cases hs
  | setmemorylimit pid limit =>
    obtain ⟨c, _, _, hs⟩ := byUser_ok hs
    obtain ⟨r, hr, hs⟩ := bind_eq_ok.mp hs
    rcases setmemorylimit_ok hr with rfl | ⟨q, m, _, _, _, _, _, _, rfl⟩
    · cases hs; exact (Assigned.same rfl).ret _
    · cases hs
      refine Assigned.ret ?_ _
      exact (Assigned.same rfl).minor fun _ => rfl
  | kill pid =>
    obtain ⟨c, _, _, hs⟩ := byUser_ok hs
    cases hs
    exact .kill
  | fdalloc f =>
    obtain ⟨c, _, _, hs⟩ := byUser_ok hs
    cases hs
    exact .fdalloc
  | close fd =>
    obtain ⟨c, _, _, hs⟩ := byUser_ok hs
    cases hs
    exact .close
  | chdir ip =>
    obtain ⟨c, _, _, hs⟩ := byUser_ok hs
    cases hs
    refine Assigned.ret ?_ _
    exact (Assigned.same rfl).minor fun _ => rfl
  | sleep chan =>
    obtain ⟨c, hc, hs⟩ := byProc_ok hs
    split at hs
    · cases hs
    · cases hs
      have hcpu : Assigned k (.sleep chan) p { k with cpuProc := none } := .same rfl
      refine hcpu.setProc fun hp => ?_
      subst hp
      exact .rest .SLEEPING hc (.inl rfl)
  | yield =>
    obtain ⟨c, hc, hs⟩ := byProc_ok hs
    cases hs
    have hcpu : Assigned k .yield p { k with cpuProc := none } := .same rfl
    refine hcpu.setProc fun hp => ?_
    subst hp
    exact .rest .RUNNABLE hc (.inr rfl)
  | wakeup chan =>
    cases hs
    exact (Assigned.same rfl).wakeup1 _
  | schedule => exact .schedule hs

/-! ### The running process -/

theorem globals_setSz (sz : Nat) (xs : List Slot) : (setSz k sz xs).globals = k.globals := by
  rw [setSz_eq]
  rfl

theorem globals_allocproc {next : Slot → Call} {ok : Bool} :
    (allocproc k c next ok).globals = k.globals := by
  rw [allocproc]
  split
  · rfl
  · split <;> rfl

theorem globals_forkCopy {dir : Option Nat} (hs : forkCopy k c np dir = .ok k') :
    k'.globals = k.globals := by
  cases dir with
  | none => cases hs; rfl
  | some d =>
    obtain ⟨k₁, hk₁, hs⟩ := bind_eq_ok.mp hs
    obtain ⟨_, rfl⟩ := newDir_ok hk₁
    obtain ⟨m, _, hs⟩ := bind_eq_ok.mp hs
    cases hs
    rfl

theorem globals_exitBegin (hs : exitBegin k c = .ok k') : k'.globals = k.globals := by
  rw [exitBegin] at hs
  split at hs
  · cases hs
  · obtain ⟨m, _, hs⟩ := bind_eq_ok.mp hs
    cases hs
    rfl

theorem globals_linkThread {sz : Nat} (hs : linkThread k c np sz = .ok k') :
    k'.globals = k.globals := by
  rw [linkThread] at hs
  split at hs
  · cases hs
  · obtain ⟨m, _, hs⟩ := bind_eq_ok.mp hs
    split at hs
    · cases hs
    · cases hs
      rw [globals_setSz]
      rfl

theorem globals_createFinish {ok : Bool} (hs : createFinish k c m np ok = .ok k') :
    k'.globals = k.globals := by
  rw [createFinish] at hs
  split at hs
  · cases hs; rfl
  · split at hs
    · cases hs; rfl
    · rw [globals_linkThread hs]; rfl

theorem globals_closeFile {fd : Nat} (hs : closeFile k p fd = .ok k') :
    k'.globals = k.globals := by
  obtain ⟨f, _, rfl⟩ := closeFile_ok hs
  rfl

theorem globals_closeFiles (hs : closeFiles k c = .ok k') : k'.globals = k.globals := by
  rw [closeFiles] at hs
  split at hs
  · cases hs
  · cases hs
  · cases hs; rfl
  · obtain ⟨k₁, hk₁, hs⟩ := bind_eq_ok.mp hs
    cases hs
    exact (globals_closeFile hk₁ :)
  · split at hs <;> (cases hs; rfl)
  · obtain ⟨k₁, hk₁, hs⟩ := bind_eq_ok.mp hs
    cases hs
    exact (globals_closeFile hk₁ :)

theorem globals_moveCurrent {prev : Slot} (hs : moveCurrent k p prev = .ok k') :
    k'.globals = k.globals := by
  obtain ⟨m, _, hs⟩ := bind_eq_ok.mp hs
  split at hs <;> (cases hs; rfl)

theorem globals_unlinkLoop {n : Nat} {prev prev' : Slot}
    (hs : unlinkLoop p n k prev = .ok (k', prev')) : k'.globals = k.globals := by
  induction n generalizing k prev with
  | zero => cases hs
  | succ n ih =>
    rw [unlinkLoop] at hs
    split at hs
    · cases hs; rfl
    · obtain ⟨q, _, hs⟩ := bind_eq_ok.mp hs
      exact (ih hs :)

theorem globals_unlinkThread (hs : unlinkThread k m p = .ok k') : k'.globals = k.globals := by
  rw [unlinkThread] at hs
  split at hs
  · exact (globals_moveCurrent hs :)
  · obtain ⟨q, _, hs⟩ := bind_eq_ok.mp hs
    obtain ⟨⟨k₂, prev⟩, hk₂, hs⟩ := bind_eq_ok.mp hs
    rw [globals_moveCurrent hs, globals_unlinkLoop hk₂]

theorem globals_joinCheck (hs : joinCheck k c m p = .ok k') :
    k'.globals = k.globals ∨ k'.globals = (none, k.initproc) := by
  rw [joinCheck] at hs
  split at hs
  · cases hs; exact .inr rfl
  · obtain ⟨k₁, hk₁, hs⟩ := bind_eq_ok.mp hs
    cases hs
    exact .inl (globals_unlinkThread hk₁ :)

theorem initproc_reparent : (reparent k c).initproc = k.initproc := by
  rw [reparent]
  split <;> rfl

theorem globals_zombie (r : Nat) : (zombie k c r).globals = (none, k.initproc) := rfl

/-- The steps with which the running process ends. -/
def Step.ends : Step → Bool
  | .exit | .threadExit => true
  | _ => false

/-- With a step, the running process goes on, or gives up the CPU, as it does when it ends, or the
    scheduler starts a process. -/
def CpuNext (k : Kernel) (e : Step) (k' : Kernel) : Prop :=
  k'.initproc = k.initproc ∧ ((k'.cpuProc = k.cpuProc ∧ e.ends = false) ∨ k'.cpuProc = none ∨
    (e = .schedule ∧ ∃ t, k'.cpuProc = some t ∧ (k'.proc t).state = .RUNNING))

theorem CpuNext.keeps (h : k'.globals = k.globals) (he : e.ends = false) : CpuNext k e k' :=
  ⟨congrArg Prod.snd h, .inl ⟨congrArg Prod.fst h, he⟩⟩

theorem CpuNext.gives (h : k'.globals = (none, k.initproc)) : CpuNext k e k' :=
  ⟨congrArg Prod.snd h, .inr (.inl (congrArg Prod.fst h))⟩

theorem CpuNext.wait (hs : Thread.wait k c = .ok k') : CpuNext k .wait k' := by
  rw [Thread.wait] at hs
  split at hs
  · obtain ⟨m, _, hs⟩ := bind_eq_ok.mp hs
    obtain ⟨k₁, hk₁, hs⟩ := bind_eq_ok.mp hs
    obtain ⟨d, _, rfl⟩ := freevm_ok hk₁
    cases hs
    exact .keeps rfl rfl
  · split at hs
    · cases hs; exact .keeps rfl rfl
    · cases hs; exact .gives rfl

theorem CpuNext.joinCheck (he : e.joins = true) (hs : Thread.joinCheck k c m p = .ok k') :
    CpuNext k e k' := by
  rcases globals_joinCheck hs with h | h
  · refine .keeps h ?_
    cases e <;> first | rfl | cases he
  · exact .gives h

theorem CpuNext.execCommit {d sz : Nat} (hs : Thread.execCommit k c d sz = .ok k') :
    CpuNext k (.execCommit d sz) k' := by
  rw [Thread.execCommit] at hs
  split at hs
  · cases hs
  · obtain ⟨k₁, hk₁, hs⟩ := bind_eq_ok.mp hs
    obtain ⟨_, rfl⟩ := newDir_ok hk₁
    obtain ⟨m, _, hs⟩ := bind_eq_ok.mp hs
    split at hs <;> (cases hs; exact .keeps rfl rfl)

theorem CpuNext.execFinish {old : Option Nat} (hs : Thread.execFinish k c old = .ok k') :
    CpuNext k .execFinish k' := by
  obtain ⟨k₂, hk₂, hs⟩ := bind_eq_ok.mp hs
  obtain ⟨k₁, hk₁, hk₂⟩ := bind_eq_ok.mp hk₂
  cases hk₂
  obtain ⟨d, _, rfl⟩ := freevm_ok hs
  have hcpu : k₁.globals = k.globals := globals_freeThreads hk₁
  exact .keeps hcpu rfl

theorem CpuNext.schedule (hs : Thread.schedule k = .ok k') : CpuNext k .schedule k' := by
  rw [Thread.schedule] at hs
  split at hs
  · cases hs
  · split at hs
    · cases hs; exact .keeps rfl rfl
    · obtain ⟨m, _, hs⟩ := bind_eq_ok.mp hs
      obtain ⟨cur, _, hs⟩ := bind_eq_ok.mp hs
      split at hs
      · cases hs
      · rename_i t _
        cases hs
        refine ⟨rfl, .inr (.inr ⟨rfl, t, rfl, ?_⟩)⟩
        rw [setProc_self]

/-- No other step changes the running process. -/
theorem step_cpu (hs : step k e = .ok k') : CpuNext k e k' := by
  rw [step] at hs
  split at hs
  · cases hs
  cases e with
  | forkAlloc ok =>
    obtain ⟨c, _, _, hs⟩ := byUser_ok hs
    cases hs
    exact .keeps globals_allocproc rfl
  | forkCopy dir =>
    obtain ⟨c, _, hs⟩ := byProc_ok hs
    split at hs
    · exact .keeps (globals_forkCopy hs) rfl
    · cases hs
  | forkRun =>
    obtain ⟨c, _, hs⟩ := byProc_ok hs
    split at hs
    · cases hs; exact .keeps rfl rfl
    · cases hs
  | createAlloc ok =>
    obtain ⟨c, _, _, hs⟩ := byUser_ok hs
    obtain ⟨m, _, hs⟩ := bind_eq_ok.mp hs
    cases hs
    exact .keeps globals_allocproc rfl
  | createFinish ok =>
    obtain ⟨c, _, hs⟩ := byProc_ok hs
    split at hs
    · exact .keeps (globals_createFinish hs) rfl
    · cases hs
  | exitBegin =>
    obtain ⟨c, _, _, hs⟩ := byUser_ok hs
    exact .keeps (globals_exitBegin hs) rfl
  | threadExitBegin r =>
    obtain ⟨c, _, _, hs⟩ := byUser_ok hs
    rw [threadExitBegin] at hs
    split at hs
    · exact .keeps (globals_exitBegin hs) rfl
    · cases hs; exact .keeps rfl rfl
  | closeFiles =>
    obtain ⟨c, _, hs⟩ := byProc_ok hs
    exact .keeps (globals_closeFiles hs) rfl
  | exit =>
    obtain ⟨c, _, hs⟩ := byProc_ok hs
    split at hs
    · obtain ⟨k₁, hk₁, hs⟩ := bind_eq_ok.mp hs
      cases hs
      have hinit : k₁.initproc = k.initproc := congrArg Prod.snd (globals_freeThreads hk₁)
      refine .gives ?_
      rw [globals_zombie, initproc_reparent, ← hinit]
      rfl
    · cases hs
  | threadExit =>
    obtain ⟨c, _, hs⟩ := byProc_ok hs
    split at hs
    · split at hs
      · cases hs
        refine .gives ?_
        rw [threadExit, globals_zombie, initproc_reparent]
        rfl
      · cases hs
    · cases hs
  | wait =>
    obtain ⟨c, _, hs⟩ := byProc_ok hs
    split at hs
    · exact .wait hs
    · cases hs
  | threadJoin tid =>
    obtain ⟨c, _, _, hs⟩ := byUser_ok hs
    obtain ⟨m, _, hs⟩ := bind_eq_ok.mp hs
    split at hs
    · cases hs
    · cases hs; exact .keeps rfl rfl
    · exact .joinCheck rfl hs
  | joinCheck =>
    obtain ⟨c, _, hs⟩ := byProc_ok hs
    split at hs
    · exact .joinCheck rfl hs
    · cases hs
  | execCommit d sz =>
    obtain ⟨c, _, _, hs⟩ := byUser_ok hs
    exact .execCommit hs
  | execFinish =>
    obtain ⟨c, _, hs⟩ := byProc_ok hs
    split at hs
    · split at hs
      · exact .execFinish hs
      · cases hs
    · cases hs
  | sbrk n =>
    obtain ⟨c, _, _, hs⟩ := byUser_ok hs
    rw [sbrk] at hs
    split at hs
    · cases hs; exact .keeps rfl rfl
    · cases hs
  | growproc ok =>
    obtain ⟨c, _, hs⟩ := byProc_ok hs
    split at hs
    · obtain ⟨r, hr, hs⟩ := bind_eq_ok.mp hs
      rcases growproc_ok hr with rfl | ⟨m, sz, xs, _, _, _, rfl⟩
      · cases hs; exact .keeps rfl rfl
      · cases hs; exact .keeps (globals_setSz sz xs :) rfl
    · cases hs
  | setmemorylimit pid limit =>
    obtain ⟨c, _, _, hs⟩ := byUser_ok hs
    obtain ⟨r, hr, hs⟩ := bind_eq_ok.mp hs
    rcases setmemorylimit_ok hr with rfl | ⟨q, m, _, _, _, _, _, _, rfl⟩
    · cases hs; exact .keeps rfl rfl
    · cases hs; exact .keeps rfl rfl
  | kill pid =>
    obtain ⟨c, _, _, hs⟩ := byUser_ok hs
    cases hs
    rw [kill]
    split <;> exact .keeps rfl rfl
  | fdalloc f =>
    obtain ⟨c, _, _, hs⟩ := byUser_ok hs
    cases hs
    rw [fdalloc]
    split <;> exact .keeps rfl rfl
  | close fd =>
    obtain ⟨c, _, _, hs⟩ := byUser_ok hs
    cases hs
    rw [close]
    split <;> exact .keeps rfl rfl
  | chdir ip =>
    obtain ⟨c, _, _, hs⟩ := byUser_ok hs
    cases hs
    exact .keeps rfl rfl
  | sleep chan =>
    obtain ⟨c, _, hs⟩ := byProc_ok hs
    split at hs
    · cases hs
    · cases hs; exact .gives rfl
  | yield =>
    obtain ⟨c, _, hs⟩ := byProc_ok hs
    cases hs
    exact .gives rfl
  | wakeup chan =>
    cases hs
    exact .keeps rfl rfl
  | schedule => exact .schedule hs

end Xv6.Thread
