import Xv6.Thread.Steps

namespace Xv6.Thread

open Xv6.Lib

/-!
# Threads — what a new slot inherits from its former occupant

`wait`, `exit`, `thread_join` and `kill_for_exec` clear different fields of a slot that they give
back, and `allocproc`, `fork` and `thread_create` set others.  Two machines that differ only in
unused slots are compared after the same call:

* `new_slot_same_iff` — the new slots agree exactly when the fields that nobody clears agreed
  before;
* `fork_inherits_limit` — two runs after which a fork child has different memory limits.
-/

/-- The fields of a new slot that are compared. -/
structure Inherited where
  killed : Bool
  memoryLimit : Nat
  nextThread : Option Slot
  isThread : Bool
  mainThread : Option Slot
  currentThread : Option Slot
  tid : Nat
  ofile : Fin NOFILE → Option Nat
  cwd : Option Nat
  deriving DecidableEq

/-- These fields of a slot. -/
def Proc.inherited (q : Proc) : Inherited where
  killed := q.killed
  memoryLimit := q.memoryLimit
  nextThread := q.nextThread
  isThread := q.isThread
  mainThread := q.mainThread
  currentThread := q.currentThread
  tid := q.tid
  ofile := q.ofile
  cwd := q.cwd

/-- The machines agree except in the contents of unused slots. -/
structure AgreeUsed (k₁ k₂ : Kernel) : Prop where
  unused : ∀ q, (k₁.proc q).state = .UNUSED ↔ (k₂.proc q).state = .UNUSED
  used : ∀ q, (k₁.proc q).state ≠ .UNUSED → k₁.proc q = k₂.proc q
  call : ∀ q, (k₁.proc q).state ≠ .UNUSED → k₁.call q = k₂.call q ∧ k₁.walk q = k₂.walk q
  rest : k₁.dirs = k₂.dirs ∧ k₁.nextpid = k₂.nextpid ∧ k₁.initproc = k₂.initproc ∧
    k₁.cpuProc = k₂.cpuProc ∧ k₁.scan = k₂.scan ∧ k₁.ptableLocked = k₂.ptableLocked

instance (k₁ k₂ : Kernel) : Decidable (AgreeUsed k₁ k₂) :=
  decidable_of_iff ((_ ∧ _) ∧ (_ ∧ _)) ⟨fun h => ⟨h.1.1, h.1.2, h.2.1, h.2.2⟩,
    fun h => ⟨⟨h.unused, h.used⟩, ⟨h.call, h.rest⟩⟩⟩

/-- A call that makes a new slot: `fork`, with the directory that `copyuvm` returns, or
    `thread_create`. -/
inductive NewCall
  | fork (dir : Nat)
  | create
  deriving DecidableEq, Repr

/-- The steps of such a call when it is not interrupted and there is enough memory. -/
def NewCall.steps : NewCall → List Step
  | .fork dir => [.forkAlloc true, .forkCopy (some dir), .forkRun]
  | .create => [.createAlloc true, .createFinish true]

/-- The call of `c` has succeeded, with the machine `k'` at its end. -/
def NewCall.Succeeds (x : NewCall) (k : Kernel) (c : Slot) (k' : Kernel) : Prop :=
  k.cpuProc = some c ∧ (k.proc c).state ≠ .UNUSED ∧ exec step k x.steps = .ok k' ∧
    0 ≤ (k'.proc c).eax

/-- What the former occupant has left in the slot `p` and the call of `c` does not overwrite, and
    the number of threads in the slot of the main thread, where that slot is another one. -/
def SameResidue (x : NewCall) (k₁ k₂ : Kernel) (c p : Slot) : Prop :=
  (k₁.proc p).killed = (k₂.proc p).killed ∧ (k₁.proc p).memoryLimit = (k₂.proc p).memoryLimit ∧
    (∀ fd, (k₁.proc c).ofile fd = none → (k₁.proc p).ofile fd = (k₂.proc p).ofile fd) ∧
    match x with
    | .fork _ => (k₁.proc p).nextThread = (k₂.proc p).nextThread
    | .create => ∀ m, (k₁.proc c).mainThread = some m → m ≠ p →
        (k₁.proc m).createNum = (k₂.proc m).createNum

variable {k k' k₁ k₂ k₁' k₂' : Kernel} {c m p np : Slot}

/-! ### The new slot -/

/-- The files that a new slot has. -/
def copiedFiles (q n : Proc) (fd : Fin NOFILE) : Option Nat :=
  if (q.ofile fd).isSome then q.ofile fd else n.ofile fd

theorem copiedFiles_eq_iff {q n n' : Proc} : copiedFiles q n = copiedFiles q n' ↔
    ∀ fd, q.ofile fd = none → n.ofile fd = n'.ofile fd := by
  rw [funext_iff]
  refine forall_congr' fun fd => ?_
  cases h : q.ofile fd with
  | none => simp [copiedFiles, h]
  | some f => simp [copiedFiles, h]

/-- `allocproc` for a call. -/
theorem allocproc_eq {next : Slot → Call} (hp : firstUnused k = some p) :
    allocproc k c next true =
      ((initSlot k p).setProc p fun q => { q with kstack := true }).setCall c (next p) := by
  rw [allocproc, hp]
  rfl

/-- A step of the running process. -/
theorem step_byProc {f : Slot → Except Stop Kernel} {e : Step} (hc : k.cpuProc = some c)
    (he : stepFree k e = byProc k f) (hs : step k e = .ok k') : f c = .ok k' := by
  rw [step] at hs
  split at hs
  · cases hs
  · rw [he] at hs
    obtain ⟨c', hc', hs⟩ := byProc_ok hs
    cases hc.symm.trans hc'
    exact hs

/-- A system call of the running process. -/
theorem step_byUser {f : Slot → Except Stop Kernel} {e : Step} (hc : k.cpuProc = some c)
    (he : stepFree k e = byUser k f) (hs : step k e = .ok k') : f c = .ok k' := by
  have := step_byProc hc (he.trans rfl) hs
  split at this
  · exact this
  · cases this

/-- The child of a `fork`. -/
theorem fork_inherited {dir : Nat} (hs : (NewCall.fork dir).Succeeds k c k')
    (hp : firstUnused k = some p) : (k'.proc p).inherited = {
      (k.proc p).inherited with
      isThread := false, mainThread := some p, currentThread := some p, tid := 0
      ofile := copiedFiles (k.proc c) (k.proc p), cwd := (k.proc c).cwd } := by
  obtain ⟨hc, hused, hs, _⟩ := hs
  have hpc : p ≠ c := fun hpc => hused (hpc ▸ firstUnused_state hp)
  obtain ⟨u, hu, hs⟩ := exec_cons_eq_ok.mp hs
  obtain ⟨w, hw, hs⟩ := exec_cons_eq_ok.mp hs
  obtain ⟨x, hx, hs⟩ := exec_cons_eq_ok.mp hs
  cases hs
  have hu' := step_byUser hc rfl hu
  rw [allocproc_eq hp] at hu'
  cases hu'
  have hcu : ((initSlot k p).setProc p fun q => { q with kstack := true }).proc c = k.proc c := by
    rw [setProc_other hpc.symm, initSlot, setProc_other hpc.symm]
  generalize hk₁ : ((initSlot k p).setProc p fun q => { q with kstack := true }) = u at hw hcu
  have hpu : u.proc p = { k.proc p with
      kstack := true, state := .EMBRYO, pid := k.nextpid, isThread := false, tid := 0
      createNum := 0, currentThread := some p, mainThread := some p } := by
    rw [← hk₁, setProc_self, initSlot, setProc_self]
  have hw' := step_byProc (c := c) (by rw [← hk₁]; exact hc) rfl hw
  have hcall : (u.setCall c (.fork p)).call c = .fork p := Function.update_self ..
  simp only [hcall] at hw'
  obtain ⟨y, hy, hw'⟩ := bind_eq_ok.mp hw'
  obtain ⟨_, rfl⟩ := newDir_ok hy
  obtain ⟨m, _, hw'⟩ := bind_eq_ok.mp hw'
  cases hw'
  have hx' := step_byProc (c := c) (by rw [← hk₁]; exact hc) rfl hx
  simp only [Kernel.setCall, Function.update_self] at hx'
  cases hx'
  rw [forkRun, ret_other hpc, setProc_self]
  simp only [Kernel.setProc, Function.update_self, hcu, hpu]
  rfl

/-- An assignment to fields that are not compared. -/
theorem setProc_inherited {f : Proc → Proc} (hf : ∀ q, (f q).inherited = q.inherited) (q : Slot) :
    ((k.setProc p f).proc q).inherited = (k.proc q).inherited := by
  by_cases hq : q = p
  · subst hq; rw [setProc_self, hf]
  · rw [setProc_other hq]

theorem setSz_inherited (sz : Nat) (xs : List Slot) (q : Slot) :
    ((setSz k sz xs).proc q).inherited = (k.proc q).inherited := by
  rw [setSz_eq]
  show (if q ∈ xs then { k.proc q with sz := sz } else k.proc q).inherited = _
  split <;> rfl

theorem ret_inherited (r : Int) (q : Slot) :
    ((k.ret c r).proc q).inherited = (k.proc q).inherited := by
  rw [Kernel.ret, proc_setCall]
  apply setProc_inherited
  exact fun _ => rfl

theorem attach_self : ((attach k c m np).proc np).inherited =
    { (k.proc np).inherited with mainThread := some m, tid := (k.proc m).createNum + 1 } := by
  rw [attach]
  simp only [setProc_self]
  by_cases h : np = m
  · subst h; rw [setProc_self]; rfl
  · rw [setProc_other h]; rfl

theorem attach_other {q : Slot} (hq : q ≠ np) :
    ((attach k c m np).proc q).inherited = (k.proc q).inherited := by
  rw [attach, setProc_other hq]
  apply setProc_inherited
  exact fun _ => rfl

/-- The slot of a new thread that is linked and started.  The list of threads need not be
    intact. -/
theorem linkThread_self {sz : Nat} (hs : linkThread k c np sz = .ok k') :
    (k'.proc np).inherited = { (k.proc np).inherited with
      nextThread := none, isThread := true, cwd := (k.proc c).cwd
      ofile := fun fd => if ((k.proc c).ofile fd).isSome then (k.proc c).ofile fd
        else (k.proc np).ofile fd } := by
  rw [linkThread] at hs
  split at hs
  · cases hs
  · rename_i z _
    obtain ⟨m', _, hs⟩ := bind_eq_ok.mp hs
    split at hs
    · cases hs
    · cases hs
      rw [setSz_inherited, setProc_self]
      by_cases hz : np = z
      · subst hz; rw [setProc_self, setProc_self]; rfl
      · rw [setProc_other hz, setProc_self]; rfl

/-- The slot of a new thread. -/
theorem create_inherited (hs : NewCall.create.Succeeds k c k') (hp : firstUnused k = some p) :
    ∃ m, (k.proc c).mainThread = some m ∧ (k'.proc p).inherited = {
      (k.proc p).inherited with
      nextThread := none, isThread := true, mainThread := some m, currentThread := some p
      tid := (if m = p then 0 else (k.proc m).createNum) + 1
      ofile := copiedFiles (k.proc c) (k.proc p), cwd := (k.proc c).cwd } := by
  obtain ⟨hc, hused, hs, hret⟩ := hs
  have hpc : p ≠ c := fun hpc => hused (hpc ▸ firstUnused_state hp)
  obtain ⟨u, hu, hs⟩ := exec_cons_eq_ok.mp hs
  obtain ⟨w, hw, hs⟩ := exec_cons_eq_ok.mp hs
  cases hs
  have hu' := step_byUser hc rfl hu
  obtain ⟨m, hm, hu'⟩ := bind_eq_ok.mp hu'
  rw [allocproc_eq hp] at hu'
  cases hu'
  have hother : ∀ q, q ≠ p → (((initSlot k p).setProc p fun q => { q with
      kstack := true }).setCall c (.create m p)).proc q = k.proc q := fun q hq => by
    rw [proc_setCall, setProc_other hq, initSlot, setProc_other hq]
  have hself : (((initSlot k p).setProc p fun q => { q with
      kstack := true }).setCall c (.create m p)).proc p = { k.proc p with
      kstack := true, state := .EMBRYO, pid := k.nextpid, isThread := false, tid := 0
      createNum := 0, currentThread := some p, mainThread := some p } := by
    rw [proc_setCall, setProc_self, initSlot, setProc_self]
  generalize hk₁ : (((initSlot k p).setProc p fun q => { q with
    kstack := true }).setCall c (.create m p)) = u at hw hother hself
  have hw' := step_byProc (c := c) (by rw [← hk₁]; exact hc) rfl hw
  have hcall : u.call c = .create m p := by rw [← hk₁]; exact Function.update_self ..
  simp only [hcall] at hw'
  refine ⟨m, deref_ok hm, ?_⟩
  have hnum : (u.proc m).createNum = if m = p then 0 else (k.proc m).createNum := by
    split
    · rename_i hmp; rw [hmp, hself]
    · rename_i hmp; rw [hother m hmp]
  rw [createFinish] at hw'
  split at hw'
  · cases hw'
    simp [Kernel.ret, Kernel.setProc] at hret
  · simp only at hw'
    split at hw'
    · cases hw'
      simp [Kernel.ret, Kernel.setProc] at hret
    · generalize stackSize u m true = newsz at hw'
      generalize hk₂ : ((((attach u c m p).setProc p fun q =>
          { q with sz := newsz }).setProc m fun q => { q with sz := newsz }).ret c 0) = k₂ at hw'
      have hin : ∀ q, (k₂.proc q).inherited = ((attach u c m p).proc q).inherited := fun q => by
        rw [← hk₂, ret_inherited, setProc_inherited, setProc_inherited] <;> exact fun _ => rfl
      have hinc : (k₂.proc c).inherited = (k.proc c).inherited := by
        rw [hin, attach_other hpc.symm, hother c hpc.symm]
      have hinp : (k₂.proc p).inherited = { (k.proc p).inherited with
          isThread := false, currentThread := some p, mainThread := some m
          tid := (if m = p then 0 else (k.proc m).createNum) + 1 } := by
        rw [hin, attach_self, hself, hnum]
        rfl
      have hfc : (k₂.proc c).ofile = (k.proc c).ofile := congrArg Inherited.ofile hinc
      have hfp : (k₂.proc p).ofile = (k.proc p).ofile := congrArg Inherited.ofile hinp
      have hcwd : (k₂.proc c).cwd = (k.proc c).cwd := congrArg Inherited.cwd hinc
      rw [linkThread_self hw', hinp, hfc, hfp, hcwd]
      rfl

/-! ### Comparison -/

theorem AgreeUsed.firstUnused (h : AgreeUsed k₁ k₂) : firstUnused k₁ = firstUnused k₂ := by
  rw [Thread.firstUnused, Thread.firstUnused]
  congr 1
  funext q
  exact decide_eq_decide.mpr (h.unused q)

/-- The new slots of two machines that agree except in unused slots agree exactly when the fields
    that the call does not overwrite agreed before; and a fork child starts with cleared fields
    exactly when they were clear in its slot before. -/
theorem new_slot_same_iff (x : NewCall) (h : AgreeUsed k₁ k₂) (hp : firstUnused k₁ = some p)
    (h₁ : x.Succeeds k₁ c k₁') (h₂ : x.Succeeds k₂ c k₂') :
    ((k₁'.proc p).inherited = (k₂'.proc p).inherited ↔ SameResidue x k₁ k₂ c p) ∧
    ((k₁'.proc p).killed = false ∧ (k₁'.proc p).memoryLimit = 0 ∧ (k₁'.proc p).nextThread = none ↔
      (k₁.proc p).killed = false ∧ (k₁.proc p).memoryLimit = 0 ∧
        (x = .create ∨ (k₁.proc p).nextThread = none)) := by
  have hc : k₁.proc c = k₂.proc c := h.used c h₁.2.1
  have hp₂ : Thread.firstUnused k₂ = some p := h.firstUnused ▸ hp
  cases x with
  | fork dir =>
    have e₁ := fork_inherited h₁ hp
    have e₂ := fork_inherited h₂ hp₂
    refine ⟨?_, ?_⟩
    · rw [e₁, e₂, ← hc]
      simp only [Inherited.mk.injEq, Proc.inherited, copiedFiles_eq_iff, SameResidue]
      tauto
    · have hk : (k₁'.proc p).killed = (k₁.proc p).killed := congrArg Inherited.killed e₁
      have hl : (k₁'.proc p).memoryLimit = (k₁.proc p).memoryLimit :=
        congrArg Inherited.memoryLimit e₁
      have hn : (k₁'.proc p).nextThread = (k₁.proc p).nextThread :=
        congrArg Inherited.nextThread e₁
      rw [hk, hl, hn]
      simp
  | create =>
    obtain ⟨m, hm, e₁⟩ := create_inherited h₁ hp
    obtain ⟨m', hm', e₂⟩ := create_inherited h₂ hp₂
    rw [← hc] at hm' e₂
    cases hm.symm.trans hm'
    refine ⟨?_, ?_⟩
    · rw [e₁, e₂]
      simp only [Inherited.mk.injEq, Proc.inherited, copiedFiles_eq_iff, SameResidue, hm]
      by_cases hmp : m = p
      · simp [hmp]
      · simp [hmp]; tauto
    · have hk : (k₁'.proc p).killed = (k₁.proc p).killed := congrArg Inherited.killed e₁
      have hl : (k₁'.proc p).memoryLimit = (k₁.proc p).memoryLimit :=
        congrArg Inherited.memoryLimit e₁
      have hn : (k₁'.proc p).nextThread = none := congrArg Inherited.nextThread e₁
      rw [hk, hl, hn]
      simp

/-- The slot of a `fork` does not depend on an unused slot that it does not take. -/
theorem new_slot_same_other :
    ∃ k₁ k₂ k₁' k₂', (k₁.proc 5).killed ≠ (k₂.proc 5).killed ∧
      (NewCall.fork 9).Succeeds k₁ 0 k₁' ∧ (NewCall.fork 9).Succeeds k₂ 0 k₂' ∧
      (k₁'.proc 1).inherited = (k₂'.proc 1).inherited := by
  obtain ⟨k₀, h₀⟩ : ∃ k, userinit boot 7 = .ok k := ⟨_, rfl⟩
  obtain ⟨k, -, hk⟩ := exec_of_execTest step k₀ [.schedule] (fun k =>
    decide (AgreeUsed k (k.setProc 5 fun q => { q with killed := true }) ∧
      firstUnused k = some 1 ∧ k.cpuProc = some 0 ∧ (k.proc 0).state ≠ .UNUSED ∧
      (k.proc 5).killed = false) &&
    (execTest step k (NewCall.fork 9).steps fun k' => decide (0 ≤ (k'.proc 0).eax)) &&
    (execTest step (k.setProc 5 fun q => { q with killed := true }) (NewCall.fork 9).steps
      fun k' => decide (0 ≤ (k'.proc 0).eax))) (by cases h₀; decide +kernel)
  rw [Bool.and_eq_true, Bool.and_eq_true, decide_eq_true_eq] at hk
  obtain ⟨⟨⟨hagree, hp, hc, hused, hkill⟩, h₁⟩, h₂⟩ := hk
  obtain ⟨k₁', hk₁', he₁⟩ := exec_of_execTest step _ _ _ h₁
  obtain ⟨k₂', hk₂', he₂⟩ := exec_of_execTest step _ _ _ h₂
  have hs₁ : (NewCall.fork 9).Succeeds k 0 k₁' := ⟨hc, hused, hk₁', of_decide_eq_true he₁⟩
  have hs₂ : (NewCall.fork 9).Succeeds (k.setProc 5 fun q => { q with killed := true }) 0 k₂' :=
    ⟨hc, by rw [setProc_other (by decide)]; exact hused, hk₂', of_decide_eq_true he₂⟩
  refine ⟨k, _, k₁', k₂', ?_, hs₁, hs₂, (new_slot_same_iff _ hagree hp hs₁ hs₂).1.mpr ?_⟩
  · rw [setProc_self, hkill]; exact Bool.false_ne_true
  · rw [SameResidue, setProc_other (by decide)]
    exact ⟨rfl, rfl, fun _ _ => rfl, rfl⟩

/-- The steps of a run in which a child of init gets the memory limit `limit`, or not if that
    fails, exits and is reaped. -/
def limitRun (limit : Int) : List Step :=
  [.schedule, .forkAlloc true, .forkCopy (some 8), .forkRun, .setmemorylimit 2 limit, .wait,
    .schedule] ++ exitSteps ++ [.schedule, .schedule, .wait]

/-- Two runs that differ in a memory limit of a process that was reaped, and after which the next
    child of init has different limits. -/
theorem fork_inherits_limit :
    ∃ k₁ k₂ k₁' k₂', Reachable Init (Steps step fun _ _ => True) k₁ ∧
      Reachable Init (Steps step fun _ _ => True) k₂ ∧ AgreeUsed k₁ k₂ ∧
      firstUnused k₁ = some 1 ∧ (NewCall.fork 9).Succeeds k₁ 0 k₁' ∧
      (NewCall.fork 9).Succeeds k₂ 0 k₂' ∧
      (k₁'.proc 1).inherited ≠ (k₂'.proc 1).inherited ∧ (k₂'.proc 1).memoryLimit ≠ 0 := by
  obtain ⟨k₀, h₀⟩ : ∃ k, userinit boot 7 = .ok k := ⟨_, rfl⟩
  have hstart : Reachable Init (Steps step fun _ _ => True) k₀ := .start ⟨7, h₀⟩
  have htest : execTest step k₀ (limitRun (-1)) (fun k₁ => execTest step k₀ (limitRun 100000) fun k₂ =>
      decide (AgreeUsed k₁ k₂ ∧ firstUnused k₁ = some 1 ∧ k₁.cpuProc = some 0 ∧
        (k₁.proc 0).state ≠ .UNUSED) &&
      execTest step k₁ (NewCall.fork 9).steps fun k₁' => execTest step k₂ (NewCall.fork 9).steps fun k₂' =>
        decide (0 ≤ (k₁'.proc 0).eax ∧ 0 ≤ (k₂'.proc 0).eax ∧
          (k₁'.proc 1).memoryLimit = 0 ∧ (k₂'.proc 1).memoryLimit ≠ 0)) = true := by
    cases h₀
    decide +kernel
  obtain ⟨k₁, hk₁, htest⟩ := exec_of_execTest _ _ _ _ htest
  obtain ⟨k₂, hk₂, htest⟩ := exec_of_execTest _ _ _ _ htest
  rw [Bool.and_eq_true, decide_eq_true_eq] at htest
  obtain ⟨⟨hagree, hp, hc, hused⟩, htest⟩ := htest
  obtain ⟨k₁', hk₁', htest⟩ := exec_of_execTest _ _ _ _ htest
  obtain ⟨k₂', hk₂', htest⟩ := exec_of_execTest _ _ _ _ htest
  obtain ⟨he₁, he₂, hl₁, hl₂⟩ := of_decide_eq_true htest
  refine ⟨k₁, k₂, k₁', k₂', reachable_exec hstart (fun _ _ _ => trivial) hk₁,
    reachable_exec hstart (fun _ _ _ => trivial) hk₂, hagree, hp, ⟨hc, hused, hk₁', he₁⟩,
    ⟨?_, ?_, hk₂', he₂⟩, fun heq => ?_, hl₂⟩
  · rw [← hagree.rest.2.2.2.1]; exact hc
  · rw [← hagree.used 0 hused]; exact hused
  · have := congrArg Inherited.memoryLimit heq
    exact hl₂ (this.symm.trans hl₁)

end Xv6.Thread
