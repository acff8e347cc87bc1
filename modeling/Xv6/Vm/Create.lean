import Xv6.Thread.Tids
import Xv6.Vm.Access

namespace Xv6.Vm

open Xv6.Thread (Kernel Proc Stop Slot Call NPROC PGSIZE KERNBASE pgRoundUp deref attach overLimit
  linkThread linked setSz firstUnused initSlot allocproc stackSize)
open Xv6.Lib

/-!
# Memory — `thread_create`

* `createStack_kernel` — what `thread_create` does to the process table is the step of
  `Xv6.Thread`;
* `create_unchanged` — when a `thread_create` that fails has changed nothing.
-/

variable {s s' : Machine} {k k' : Kernel} {c m np p : Slot} {thread start arg : Nat}

/-! ### Failed calls -/

theorem nums_startThread {pgdir : Page} {d : Dir} {newsz : Nat}
    (h : startThread s c m np pgdir d newsz start arg = .ok s') : s'.kernel.nums = s.kernel.nums := by
  unfold startThread at h
  obtain ⟨d₁, -, h⟩ := bind_eq_ok.mp h
  obtain ⟨⟨ok, mem⟩, -, h⟩ := bind_eq_ok.mp h
  dsimp only at h
  split at h
  · obtain ⟨k', hk', h⟩ := bind_eq_ok.mp h
    cases h
    rw [Thread.nums_linkThread hk', Thread.nums_ret, Thread.nums_setProc_eq rfl,
      Thread.nums_setProc_eq rfl]
  · cases h
    show (Kernel.ret _ c (-1)).nums = _
    rw [Thread.nums_ret, Thread.nums_setProc_eq rfl, Thread.nums_setProc_eq rfl,
      Thread.nums_setProc_eq rfl]

/-- Behind `allocproc`, a number is taken whatever happens. -/
theorem nums_createStack (h : createStack s c m np thread start arg = .ok s') :
    (s'.kernel.proc m).createNum = (s.kernel.proc m).createNum + 1 := by
  have hattach : (attach s.kernel c m np).nums m = (s.kernel.proc m).createNum + 1 := by
    rw [Thread.nums_attach, Function.update_self]
  unfold createStack at h
  obtain ⟨⟨pgdir, d⟩, -, h⟩ := bind_eq_ok.mp h
  obtain ⟨mem, -, h⟩ := bind_eq_ok.mp h
  obtain ⟨⟨newsz, mem₁, d₁⟩, -, h⟩ := bind_eq_ok.mp h
  dsimp only at h
  split at h
  · cases h
    exact (congrFun (Thread.nums_ret (-1)) m).trans hattach
  · exact (congrFun (nums_startThread h) m).trans hattach

/-- A failed call has changed nothing but its return value, the slots that are not in use, and the
    next pid. -/
structure Unchanged (s s' : Machine) (c : Slot) : Prop where
  slots : ∀ i, (s'.kernel.proc i).state = .UNUSED ↔ (s.kernel.proc i).state = .UNUSED
  proc : ∀ i, (s.kernel.proc i).state ≠ .UNUSED →
    s'.kernel.proc i = if i = c then { s.kernel.proc i with eax := -1 } else s.kernel.proc i
  kernel : s'.kernel.initproc = s.kernel.initproc ∧ s'.kernel.dirs = s.kernel.dirs ∧
    s'.kernel.cpuProc = s.kernel.cpuProc ∧ s'.kernel.ptableLocked = s.kernel.ptableLocked
  memory : s'.mem = s.mem ∧ s'.dir = s.dir
  kstack : ∀ i, (s.kernel.proc i).state ≠ .UNUSED → s'.kstack i = s.kstack i
  tf : s'.tf = s.tf ∧ s'.name = s.name

theorem unchanged_ret : Unchanged s { s with kernel := s.kernel.ret c (-1) } c := by
  have hproc : ∀ i, (s.kernel.ret c (-1)).proc i =
      if i = c then { s.kernel.proc i with eax := -1 } else s.kernel.proc i := by
    intro i
    by_cases hi : i = c
    · subst hi; simp [Kernel.ret, Kernel.setProc, Kernel.setCall]
    · simp [Kernel.ret, Kernel.setProc, Kernel.setCall, hi]
  refine ⟨fun i => ?_, fun i _ => hproc i, ⟨rfl, rfl, rfl, rfl⟩, ⟨rfl, rfl⟩, fun _ _ => rfl, rfl, rfl⟩
  dsimp only
  rw [hproc]
  split <;> rfl

/-- `allocproc` finds no page for the kernel stack. -/
theorem unchanged_noStack {next : Slot → Call} (hnp : firstUnused s.kernel = some np) :
    Unchanged s { s with kernel := allocproc s.kernel c next false
                         kstack := Function.update s.kstack np none } c := by
  have hunused : (s.kernel.proc np).state = .UNUSED := Thread.firstUnused_state hnp
  have heq : allocproc s.kernel c next false = ((initSlot s.kernel np).setProc np fun q =>
      { q with kstack := false, state := .UNUSED }).ret c (-1) := by
    rw [allocproc, hnp]
    rfl
  rw [heq]
  have hproc : ∀ i, i ≠ np → (((initSlot s.kernel np).setProc np fun q =>
      { q with kstack := false, state := .UNUSED }).ret c (-1)).proc i =
      if i = c then { s.kernel.proc i with eax := -1 } else s.kernel.proc i := by
    intro i hin
    by_cases hi : i = c
    · subst hi; simp [Kernel.ret, Kernel.setProc, Kernel.setCall, initSlot, hin]
    · simp [Kernel.ret, Kernel.setProc, Kernel.setCall, initSlot, hi, hin]
  have hnew : ((((initSlot s.kernel np).setProc np fun q =>
      { q with kstack := false, state := .UNUSED }).ret c (-1)).proc np).state = .UNUSED := by
    by_cases hi : np = c
    · subst hi; simp [Kernel.ret, Kernel.setProc, Kernel.setCall]
    · simp [Kernel.ret, Kernel.setProc, Kernel.setCall, hi]
  refine ⟨fun i => ?_, fun i hi => hproc i ?_, ⟨rfl, rfl, rfl, rfl⟩, ⟨rfl, rfl⟩, fun i hi => ?_,
    rfl, rfl⟩
  · by_cases hin : i = np
    · subst hin
      exact iff_of_true hnew hunused
    · dsimp only
      rw [hproc i hin]
      split <;> rfl
  · exact fun hin => hi (hin ▸ hunused)
  · have hin : i ≠ np := fun hin => hi (hin ▸ hunused)
    exact Function.update_of_ne hin _ _

/-- A `thread_create` that fails has changed nothing if and only if it has failed in
    `allocproc`. -/
theorem create_unchanged (hmain : ∀ m, (s.kernel.proc c).mainThread = some m → (s.kernel.proc m).state ≠ .UNUSED)
    (h : threadCreate s c thread start arg = .ok s') (hfail : (s'.kernel.proc c).eax = -1) :
    Unchanged s s' c ↔ firstUnused s.kernel = none ∨ s.mem.free = [] := by
  unfold threadCreate at h
  obtain ⟨m, hm, h⟩ := bind_eq_ok.mp h
  have hm := Thread.deref_ok hm
  cases hnp : firstUnused s.kernel with
  | none =>
    simp only [hnp, allocproc] at h
    cases h
    exact iff_of_true unchanged_ret (.inl rfl)
  | some np =>
    have hunused : (s.kernel.proc np).state = .UNUSED := Thread.firstUnused_state hnp
    cases hfree : s.mem.free with
    | nil =>
      simp only [hnp, kalloc, hfree] at h
      cases h
      exact iff_of_true (unchanged_noStack hnp) (.inr rfl)
    | cons p free =>
      simp only [hnp, kalloc, hfree] at h
      refine iff_of_false (fun hsame => ?_) (by simp)
      have hmnp : m ≠ np := fun hmnp => hmain m hm (hmnp ▸ hunused)
      have hnum := nums_createStack h
      have hold : ((allocproc s.kernel c (.create m) true).proc m).createNum =
          (s.kernel.proc m).createNum := by
        rw [allocproc, hnp]
        simp [Kernel.setProc, Kernel.setCall, initSlot, hmnp]
      have hkept : (s'.kernel.proc m).createNum = (s.kernel.proc m).createNum := by
        rw [hsame.proc m (hmain m hm)]
        split <;> rfl
      dsimp only at hnum
      omega

/-- A machine whose directory 7 has one user page. -/
def onePage (k : Kernel) (free : List Page) : Machine where
  kernel := k
  mem := ⟨free, fun _ _ => 0⟩
  dir := fun p => if p = 7 then some ⟨List.range' 100 KERNTABLES, fun i =>
    if i = 0 then some ⟨8, fun j => if j = 0 then some ⟨9, true⟩ else none⟩ else none⟩ else none
  kstack := fun p => if p = 0 then some 10 else none
  tf := fun _ => ⟨0, 4096⟩
  name := fun _ => []
  namei := fun _ => none
  file := fun _ => []
  ref := fun _ => 0
  locked := fun _ => false
  ops := 0

/-- There is no page for the kernel stack. -/
theorem create_unchanged_noStack : ∃ s s' : Machine, threadCreate s 0 0 0 0 = .ok s' ∧
    (s'.kernel.proc 0).eax = -1 ∧ Unchanged s s' 0 := by
  obtain ⟨k₀, h₀⟩ : ∃ k, Thread.userinit Thread.boot 7 = .ok k := ⟨_, rfl⟩
  have hrun : (match threadCreate (onePage k₀ []) 0 0 0 0 with
      | .ok s' => decide ((s'.kernel.proc 0).eax = -1)
      | .error _ => false) = true := by cases h₀; decide +kernel
  split at hrun
  · rename_i s' hs'
    have hfail := of_decide_eq_true hrun
    refine ⟨_, s', hs', hfail, (create_unchanged (fun m hm => ?_) hs' hfail).mpr (.inr rfl)⟩
    have hmain : (k₀.proc 0).mainThread = some 0 ∧ (k₀.proc 0).state ≠ .UNUSED := by
      cases h₀; decide +kernel
    cases hmain.1.symm.trans hm
    exact hmain.2
  · cases hrun

/-- Does process 0 get a thread, and a state that passes the test? -/
def createTest (s : Machine) (p : Machine → Bool) : Bool := (threadCreate s 0 0 0 0).toOption.any p

theorem of_createTest {s : Machine} {p : Machine → Bool} (h : createTest s p = true) :
    ∃ s', threadCreate s 0 0 0 0 = .ok s' ∧ p s' = true := by
  rw [createTest] at h
  cases hx : threadCreate s 0 0 0 0 with
  | error e =>
    rw [hx] at h
    cases h
  | ok s' =>
    rw [hx] at h
    exact ⟨s', rfl, h⟩

/-- Does `thread_create` of process 0 panic, because a page is there already? -/
def createRemaps (s : Machine) : Bool :=
  Except.casesOn (motive := fun _ => Bool) (threadCreate s 0 0 0 0) (fun e => decide (e = .panic "remap"))
    fun _ => false

theorem of_createRemaps {s : Machine} (h : createRemaps s = true) :
    threadCreate s 0 0 0 0 = .error (.panic "remap") := by
  rw [createRemaps] at h
  cases hx : threadCreate s 0 0 0 0 with
  | error e =>
    rw [hx] at h
    exact congrArg _ (of_decide_eq_true h)
  | ok s' =>
    rw [hx] at h
    cases h

/-- A process at its memory limit calls `thread_create`: the call fails, the slot, the tid and the
    pages are lost, and the next call, with the limit raised, panics. -/
theorem create_leaves : ∃ s s' : Machine,
    Reachable Thread.Init (Steps Thread.step fun _ _ => True) s.kernel ∧
    s.kernel.cpuProc = some 0 ∧ threadCreate s 0 0 0 0 = .ok s' ∧ (s'.kernel.proc 0).eax = -1 ∧
    ¬ Unchanged s s' 0 ∧ (s'.kernel.proc 1).state = .EMBRYO ∧
    ∃ k, Thread.step s'.kernel (.setmemorylimit 1 100000) = .ok k ∧
      threadCreate { s' with kernel := k } 0 0 0 0 = .error (.panic "remap") := by
  obtain ⟨k₀, h₀⟩ : ∃ k, Thread.userinit Thread.boot 7 = .ok k := ⟨_, rfl⟩
  obtain ⟨k, hk, hp⟩ := exec_of_execTest Thread.step k₀ [.schedule, .setmemorylimit 1 8000] (fun k =>
    decide (k.cpuProc = some 0) &&
    createTest (onePage k (List.range' 20 20)) fun s' =>
      decide ((s'.kernel.proc 0).eax = -1) && decide ((s'.kernel.proc 1).state = .EMBRYO) &&
      decide ((k.proc 1).state = .UNUSED) &&
      execTest Thread.step s'.kernel [.setmemorylimit 1 100000] fun k => createRemaps { s' with kernel := k })
    (by cases h₀; decide +kernel)
  rw [Bool.and_eq_true, decide_eq_true_eq] at hp
  obtain ⟨hcpu, hp⟩ := hp
  obtain ⟨s', hs', hp⟩ := of_createTest hp
  simp only [Bool.and_eq_true, decide_eq_true_eq] at hp
  obtain ⟨⟨⟨heax, hemb⟩, hfree⟩, hp⟩ := hp
  obtain ⟨k', hk', hp⟩ := Thread.step_of_execTest hp
  refine ⟨onePage k (List.range' 20 20), s', reachable_exec (.start ⟨7, h₀⟩)
    (fun _ _ _ => trivial) hk, hcpu, hs', heax, fun hsame => ?_, hemb, k', hk', of_createRemaps hp⟩
  have hunused := (hsame.slots 1).mpr hfree
  rw [hemb] at hunused
  cases hunused

end Xv6.Vm
