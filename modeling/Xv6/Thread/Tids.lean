import Xv6.Thread.Calls

namespace Xv6.Thread

open Xv6.Lib

/-!
# Threads — the numbers that `thread_create` hands out

`thread_create` counts the threads of a process in `create_num` of the main thread, and gives the
count to the new thread as its `tid`.  Nothing is assumed about the lists of threads.

* `step_nums` — which steps change the count, and how;
* `tid_new` — no number is handed out twice between two `exec`s.
-/

/-- The `create_num` of every slot. -/
def Kernel.nums (k : Kernel) (i : Slot) : Nat := (k.proc i).createNum

variable {k k' : Kernel} {c m np p q : Slot} {e : Step}

/-! ### Operations that do not count -/

theorem nums_setProc (f : Proc → Proc) :
    (k.setProc p f).nums = Function.update k.nums p (f (k.proc p)).createNum := by
  funext i
  by_cases h : i = p
  · subst h; simp [Kernel.nums, Kernel.setProc]
  · simp [Kernel.nums, Kernel.setProc, h]

theorem nums_setProc_eq {f : Proc → Proc} (h : (f (k.proc p)).createNum = (k.proc p).createNum) :
    (k.setProc p f).nums = k.nums := by
  rw [nums_setProc, h]
  exact Function.update_eq_self _ _

@[simp] theorem nums_setCall (x : Call) : (k.setCall p x).nums = k.nums := rfl

@[simp] theorem nums_setWalk (w : Walk) : (k.setWalk p w).nums = k.nums := rfl

@[simp] theorem nums_ret (r : Int) : (k.ret p r).nums = k.nums := by
  rw [Kernel.ret, nums_setCall, nums_setProc_eq rfl]

theorem nums_wakeup1 (chan : Option Chan) : (wakeup1 k chan).nums = k.nums := by
  funext i
  show (wakeOne chan (k.proc i)).createNum = _
  rw [wakeOne]
  split <;> rfl

theorem nums_sleep (chan : Chan) : (sleep k c chan).nums = k.nums := by
  rw [sleep, nums_setProc_eq rfl]
  rfl

theorem nums_reparent : (reparent k c).nums = k.nums := by
  have h : ({ k with proc := fun i => if (k.proc i).parent = some c then
      { k.proc i with parent := k.initproc } else k.proc i } : Kernel).nums = k.nums := by
    funext i
    show Proc.createNum (if (k.proc i).parent = some c then _ else _) = _
    split <;> rfl
  rw [reparent]
  split
  · rw [nums_wakeup1, h]
  · exact h

theorem nums_zombie (r : Nat) : (zombie k c r).nums = k.nums := by
  rw [zombie, nums_setWalk, nums_setCall, nums_setProc_eq rfl]
  rfl

theorem nums_freeThread : (freeThread k p).nums = k.nums := by
  rw [freeThread, nums_setWalk, nums_setCall, nums_setProc_eq rfl]

theorem nums_freeThreads {cond : Kernel → Slot → Bool} {n : Nat} {h : Option Slot}
    (hs : freeThreads cond n k h = .ok k') : k'.nums = k.nums := by
  induction n generalizing k h with
  | zero =>
    cases h with
    | none => cases hs; rfl
    | some p => cases hs
  | succ n ih =>
    cases h with
    | none => cases hs; rfl
    | some p =>
      rw [freeThreads] at hs
      rw [ih hs]
      split
      · exact nums_freeThread
      · rfl

theorem nums_closeFile {fd : Nat} (hs : closeFile k p fd = .ok k') : k'.nums = k.nums := by
  obtain ⟨f, hf, rfl⟩ := closeFile_ok hs
  obtain ⟨o, w, hq⟩ := hf (k.proc p)
  exact nums_setProc_eq (by rw [hq])

theorem nums_closeFiles (hs : closeFiles k c = .ok k') : k'.nums = k.nums := by
  rw [closeFiles] at hs
  split at hs
  · cases hs
  · cases hs
  · cases hs; rfl
  · obtain ⟨k₁, hk₁, hs⟩ := bind_eq_ok.mp hs
    cases hs
    rw [nums_setWalk, nums_closeFile hk₁]
  · split at hs <;> (cases hs; rfl)
  · obtain ⟨k₁, hk₁, hs⟩ := bind_eq_ok.mp hs
    cases hs
    rw [nums_setWalk, nums_closeFile hk₁]

theorem nums_exitBegin (hs : exitBegin k c = .ok k') : k'.nums = k.nums := by
  rw [exitBegin] at hs
  split at hs
  · cases hs
  · obtain ⟨m, _, hs⟩ := bind_eq_ok.mp hs
    cases hs
    rfl

theorem nums_exit (hs : exit k c = .ok k') : k'.nums = k.nums := by
  obtain ⟨k₁, hk₁, hs⟩ := bind_eq_ok.mp hs
  cases hs
  rw [nums_zombie, nums_reparent, nums_wakeup1, nums_freeThreads hk₁]

theorem nums_wait (hs : wait k c = .ok k') : k'.nums = k.nums := by
  rw [wait] at hs
  split at hs
  · obtain ⟨m, _, hs⟩ := bind_eq_ok.mp hs
    obtain ⟨k₁, hk₁, hs⟩ := bind_eq_ok.mp hs
    obtain ⟨d, _, rfl⟩ := freevm_ok hk₁
    cases hs
    rw [nums_ret, nums_setProc_eq rfl]
    rfl
  · split at hs
    · cases hs; exact nums_ret _
    · cases hs; rw [nums_sleep, nums_setCall]

theorem nums_forkCopy {dir : Option Nat} (hs : forkCopy k c np dir = .ok k') :
    k'.nums = k.nums := by
  cases dir with
  | none =>
    cases hs
    rw [nums_ret, nums_setProc_eq rfl]
  | some d =>
    obtain ⟨k₁, hk₁, hs⟩ := bind_eq_ok.mp hs
    obtain ⟨_, rfl⟩ := newDir_ok hk₁
    obtain ⟨m, _, hs⟩ := bind_eq_ok.mp hs
    cases hs
    rw [nums_setCall, nums_setProc_eq rfl]
    rfl

theorem nums_moveCurrent {prev : Slot} (hs : moveCurrent k p prev = .ok k') : k'.nums = k.nums := by
  obtain ⟨m, _, hs⟩ := bind_eq_ok.mp hs
  split at hs
  · cases hs
    exact nums_setProc_eq rfl
  · cases hs
    rfl

theorem nums_unlinkLoop {n : Nat} {prev prev' : Slot}
    (hs : unlinkLoop p n k prev = .ok (k', prev')) : k'.nums = k.nums := by
  induction n generalizing k prev with
  | zero => cases hs
  | succ n ih =>
    rw [unlinkLoop] at hs
    split at hs
    · cases hs; rfl
    · obtain ⟨q, _, hs⟩ := bind_eq_ok.mp hs
      rw [ih hs, nums_setProc_eq rfl]

theorem nums_unlinkThread (hs : unlinkThread k m p = .ok k') : k'.nums = k.nums := by
  rw [unlinkThread] at hs
  split at hs
  · rw [nums_moveCurrent hs, nums_setProc_eq rfl]
  · obtain ⟨q, _, hs⟩ := bind_eq_ok.mp hs
    obtain ⟨⟨k₁, prev⟩, hk₁, hs⟩ := bind_eq_ok.mp hs
    rw [nums_moveCurrent hs, nums_unlinkLoop hk₁]

theorem nums_joinCheck (hs : joinCheck k c m p = .ok k') : k'.nums = k.nums := by
  rw [joinCheck] at hs
  split at hs
  · cases hs
    rw [nums_sleep, nums_setCall]
  · obtain ⟨k₁, hk₁, hs⟩ := bind_eq_ok.mp hs
    cases hs
    rw [nums_ret, nums_freeThread, nums_unlinkThread hk₁, nums_setProc_eq rfl]

theorem nums_threadJoin {tid : Nat} (hs : threadJoin k c tid = .ok k') : k'.nums = k.nums := by
  obtain ⟨m, _, hs⟩ := bind_eq_ok.mp hs
  split at hs
  · cases hs
  · cases hs; exact nums_ret _
  · exact nums_joinCheck hs

theorem nums_execCommit {d sz : Nat} (hs : execCommit k c d sz = .ok k') : k'.nums = k.nums := by
  rw [execCommit] at hs
  split at hs
  · cases hs
  · obtain ⟨k₁, hk₁, hs⟩ := bind_eq_ok.mp hs
    obtain ⟨_, rfl⟩ := newDir_ok hk₁
    obtain ⟨m, _, hs⟩ := bind_eq_ok.mp hs
    split at hs
    · cases hs
      rw [nums_ret, nums_setProc_eq rfl]
      rfl
    · cases hs
      rw [nums_setWalk, nums_setCall, nums_setProc_eq rfl]
      rfl

theorem nums_setSz (sz : Nat) (xs : List Slot) : (setSz k sz xs).nums = k.nums := by
  rw [setSz_eq]
  funext i
  show Proc.createNum (if i ∈ xs then _ else _) = _
  split <;> rfl

theorem nums_sbrkGrow {addr : Nat} {n : Int} {ok : Bool} (hs : sbrkGrow k c addr n ok = .ok k') :
    k'.nums = k.nums := by
  obtain ⟨r, hr, hs⟩ := bind_eq_ok.mp hs
  rcases growproc_ok hr with rfl | ⟨m, sz, xs, _, _, _, rfl⟩
  · cases hs
    exact nums_ret _
  · cases hs
    rw [nums_ret, nums_setSz]

theorem nums_schedule (hs : schedule k = .ok k') : k'.nums = k.nums := by
  rw [schedule] at hs
  split at hs
  · cases hs
  · split at hs
    · cases hs; rfl
    · obtain ⟨m, _, hs⟩ := bind_eq_ok.mp hs
      obtain ⟨cur, _, hs⟩ := bind_eq_ok.mp hs
      split at hs
      · cases hs
      · cases hs
        rw [nums_setProc_eq rfl, nums_setProc_eq rfl]
        rfl

/-! ### Operations that count -/

theorem nums_linkThread {sz : Nat} (hs : linkThread k c np sz = .ok k') : k'.nums = k.nums := by
  rw [linkThread] at hs
  split at hs
  · cases hs
  · obtain ⟨m, _, hs⟩ := bind_eq_ok.mp hs
    split at hs
    · cases hs
    · cases hs
      rw [nums_setSz, nums_setProc_eq rfl, nums_setProc_eq rfl, nums_setProc_eq rfl]

theorem nums_attach :
    (attach k c m np).nums = Function.update k.nums m ((k.proc m).createNum + 1) := by
  rw [attach, nums_setProc_eq rfl, nums_setProc]

/-- `thread_create` counts even if it fails. -/
theorem nums_createFinish {ok : Bool} (hs : createFinish k c m np ok = .ok k') :
    k'.nums = Function.update k.nums m ((k.proc m).createNum + 1) := by
  rw [createFinish] at hs
  generalize stackSize k m ok = newsz at hs
  split at hs
  · cases hs
    rw [nums_ret, nums_attach]
  · split at hs
    · cases hs
      show (Kernel.ret _ c (-1)).nums = _
      rw [nums_ret, nums_setProc_eq rfl, nums_setProc_eq rfl, nums_setProc_eq rfl, nums_attach]
    · rw [nums_linkThread hs, nums_ret, nums_setProc_eq rfl, nums_setProc_eq rfl, nums_attach]

theorem nums_allocproc {next : Slot → Call} {ok : Bool} (hp : firstUnused k = some p) :
    (allocproc k c next ok).nums = Function.update k.nums p 0 := by
  have hinit : (initSlot k p).nums = Function.update k.nums p 0 := by
    rw [initSlot, nums_setProc]
    rfl
  rw [allocproc, hp]
  dsimp only
  split
  · rw [nums_setCall, nums_setProc_eq rfl, hinit]
  · rw [nums_ret, nums_setProc_eq rfl, hinit]

theorem nums_execFinish {old : Option Nat} (hs : execFinish k c old = .ok k') :
    k'.nums = Function.update k.nums c 0 := by
  obtain ⟨k₂, hk₂, hs⟩ := bind_eq_ok.mp hs
  obtain ⟨k₁, hk₁, hk₂⟩ := bind_eq_ok.mp hk₂
  cases hk₂
  obtain ⟨d, _, rfl⟩ := freevm_ok hs
  show ((k₁.setProc c _).ret c 0).nums = _
  rw [nums_ret, nums_setProc, nums_freeThreads hk₁]

/-- The slot whose count a step changes, and the new count. -/
def counted (k : Kernel) : Step → Option (Slot × Nat)
  | .forkAlloc _ | .createAlloc _ => (firstUnused k).map fun p => (p, 0)
  | .createFinish _ =>
    match k.cpuProc.map k.call with
    | some (.create m _) => some (m, (k.proc m).createNum + 1)
    | _ => none
  | .execFinish => k.cpuProc.map fun c => (c, 0)
  | _ => none

/-- What a step does to the counts. -/
inductive Recounts (k : Kernel) (e : Step) (k' : Kernel) : Prop
  | same (hcount : counted k e = none) (h : k'.nums = k.nums)
  | change {i : Slot} {n : Nat} (hcount : counted k e = some (i, n))
      (h : k'.nums = Function.update k.nums i n)

theorem allocproc_counted {next : Slot → Call} {ok : Bool}
    (he : counted k e = (firstUnused k).map fun p => (p, 0)) :
    Recounts k e (allocproc k c next ok) := by
  cases hp : firstUnused k with
  | none =>
    rw [allocproc, hp]
    exact .same (by rw [he, hp]; rfl) (nums_ret _)
  | some p => exact .change (by rw [he, hp]; rfl) (nums_allocproc hp)

/-- Every step changes the counts in this way. -/
theorem step_nums (hs : step k e = .ok k') :
    Recounts k e k' := by
  rw [step] at hs
  split at hs
  · cases hs
  cases e with
  | forkAlloc ok =>
    obtain ⟨c, _, _, hs⟩ := byUser_ok hs
    cases hs
    exact allocproc_counted rfl
  | forkCopy dir =>
    obtain ⟨c, _, hs⟩ := byProc_ok hs
    split at hs
    · exact .same rfl (nums_forkCopy hs)
    · cases hs
  | forkRun =>
    obtain ⟨c, _, hs⟩ := byProc_ok hs
    split at hs
    · cases hs
      exact .same rfl (by rw [forkRun, nums_ret, nums_setProc_eq rfl])
    · cases hs
  | createAlloc ok =>
    obtain ⟨c, _, _, hs⟩ := byUser_ok hs
    obtain ⟨m, _, hs⟩ := bind_eq_ok.mp hs
    cases hs
    exact allocproc_counted rfl
  | createFinish ok =>
    obtain ⟨c, hc, hs⟩ := byProc_ok hs
    split at hs
    · rename_i m np hcall
      exact .change (by simp [counted, hc, hcall]) (nums_createFinish hs)
    · cases hs
  | exitBegin =>
    obtain ⟨c, _, _, hs⟩ := byUser_ok hs
    exact .same rfl (nums_exitBegin hs)
  | threadExitBegin retval =>
    obtain ⟨c, _, _, hs⟩ := byUser_ok hs
    rw [threadExitBegin] at hs
    split at hs
    · exact .same rfl (nums_exitBegin hs)
    · cases hs; exact .same rfl rfl
  | closeFiles =>
    obtain ⟨c, _, hs⟩ := byProc_ok hs
    exact .same rfl (nums_closeFiles hs)
  | exit =>
    obtain ⟨c, _, hs⟩ := byProc_ok hs
    split at hs
    · exact .same rfl (nums_exit hs)
    · cases hs
  | threadExit =>
    obtain ⟨c, _, hs⟩ := byProc_ok hs
    split at hs
    · split at hs
      · cases hs
        exact .same rfl (by rw [threadExit, nums_zombie, nums_reparent, nums_wakeup1])
      · cases hs
    · cases hs
  | wait =>
    obtain ⟨c, _, hs⟩ := byProc_ok hs
    split at hs
    · exact .same rfl (nums_wait hs)
    · cases hs
  | threadJoin tid =>
    obtain ⟨c, _, _, hs⟩ := byUser_ok hs
    exact .same rfl (nums_threadJoin hs)
  | joinCheck =>
    obtain ⟨c, _, hs⟩ := byProc_ok hs
    split at hs
    · exact .same rfl (nums_joinCheck hs)
    · cases hs
  | execCommit d sz =>
    obtain ⟨c, _, _, hs⟩ := byUser_ok hs
    exact .same rfl (nums_execCommit hs)
  | execFinish =>
    obtain ⟨c, hc, hs⟩ := byProc_ok hs
    split at hs
    · split at hs
      · exact .change (by simp [counted, hc]) (nums_execFinish hs)
      · cases hs
    · cases hs
  | sbrk n =>
    obtain ⟨c, _, _, hs⟩ := byUser_ok hs
    rw [sbrk] at hs
    split at hs
    · cases hs; exact .same rfl rfl
    · cases hs
  | growproc ok =>
    obtain ⟨c, _, hs⟩ := byProc_ok hs
    split at hs
    · exact .same rfl (nums_sbrkGrow hs)
    · cases hs
  | setmemorylimit pid limit =>
    obtain ⟨c, _, _, hs⟩ := byUser_ok hs
    obtain ⟨r, hr, hs⟩ := bind_eq_ok.mp hs
    rcases setmemorylimit_ok hr with rfl | ⟨p, m, _, _, _, _, _, _, rfl⟩
    · cases hs
      exact .same rfl (nums_ret _)
    · cases hs
      exact .same rfl (by rw [nums_ret, nums_setProc_eq rfl])
  | kill pid =>
    obtain ⟨c, _, _, hs⟩ := byUser_ok hs
    cases hs
    rw [kill]
    split
    · exact .same rfl (nums_ret _)
    · exact .same rfl (by rw [nums_ret, nums_setProc_eq rfl])
  | fdalloc f =>
    obtain ⟨c, _, _, hs⟩ := byUser_ok hs
    cases hs
    rw [fdalloc]
    split
    · exact .same rfl (nums_ret _)
    · exact .same rfl (by rw [nums_ret, nums_setProc_eq rfl])
  | close fd =>
    obtain ⟨c, _, _, hs⟩ := byUser_ok hs
    cases hs
    rw [close]
    split
    · exact .same rfl (nums_ret _)
    · exact .same rfl (by rw [nums_ret, nums_setProc_eq rfl])
  | chdir ip =>
    obtain ⟨c, _, _, hs⟩ := byUser_ok hs
    cases hs
    exact .same rfl (by rw [chdir, nums_ret, nums_setProc_eq rfl])
  | sleep chan =>
    obtain ⟨c, _, hs⟩ := byProc_ok hs
    split at hs
    · cases hs
    · cases hs
      exact .same rfl (nums_sleep chan)
  | yield =>
    obtain ⟨c, _, hs⟩ := byProc_ok hs
    cases hs
    exact .same rfl (by rw [yield, nums_setProc_eq rfl]; rfl)
  | wakeup chan =>
    cases hs
    exact .same rfl (nums_wakeup1 _)
  | schedule => exact .same rfl (nums_schedule hs)

/-! ### Runs -/

/-- The machine, and the numbers that `thread_create` has handed out to the threads of the process
    of each main thread since the process began or called `exec`. -/
structure Tids where
  kernel : Kernel
  handed : Slot → List Nat

/-- A new count is a number that is handed out, or a beginning. -/
def noteTid (s : Tids) (e : Step) : Slot → List Nat :=
  match counted s.kernel e with
  | some (m, 0) => Function.update s.handed m []
  | some (m, n + 1) => Function.update s.handed m (s.handed m ++ [n + 1])
  | none => s.handed

/-- One step of the machine, with the numbers that it hands out. -/
def tidStep (s : Tids) (e : Step) : Except Stop Tids := do
  let k' ← step s.kernel e
  .ok ⟨k', noteTid s e⟩

/-- The machine when the scheduler starts. -/
def TidInit (s : Tids) : Prop := Init s.kernel ∧ s.handed = fun _ => []

/-- The numbers that have been handed out are counted. -/
def HandedLe (s : Tids) : Prop := ∀ m, ∀ t ∈ s.handed m, t ≤ (s.kernel.proc m).createNum

theorem counted_succ {n : Nat} (h : counted k e = some (m, n + 1)) : n = (k.proc m).createNum := by
  unfold counted at h
  split at h
  · simp at h
  · simp at h
  · split at h
    · cases h
      rfl
    · cases h
  · simp at h
  · cases h

theorem HandedLe.step {s t : Tids} (h : HandedLe s) (hs : tidStep s e = .ok t) : HandedLe t := by
  obtain ⟨k', hk', hs⟩ := bind_eq_ok.mp hs
  cases hs
  intro m
  show ∀ t ∈ noteTid s e m, t ≤ k'.nums m
  unfold noteTid
  cases step_nums hk' with
  | same hcount hnums =>
    rw [hcount, hnums]
    exact h m
  | @change i n hcount hnums =>
    rw [hcount, hnums]
    by_cases hm : m = i
    · subst hm
      cases n with
      | zero => simp
      | succ n =>
        intro t ht
        simp only [Function.update_self] at ht ⊢
        rcases List.mem_append.mp ht with hold | hnew
        · have hle := h m t hold
          have hn := counted_succ hcount
          omega
        · exact (List.mem_singleton.mp hnew).le
    · rw [Function.update_of_ne hm]
      cases n <;> (simp only [Function.update_of_ne hm]; exact h m)

/-- The next number has not been handed out since the process began or called `exec`. -/
theorem tid_new {s : Tids} (h : Reachable TidInit (Steps tidStep fun _ _ => True) s) :
    (s.kernel.proc m).createNum + 1 ∉ s.handed m := by
  have hle : HandedLe s := by
    refine h.invariant (fun s hs m t ht => ?_) fun s t hi hst => ?_
    · rw [hs.2] at ht
      cases ht
    · obtain ⟨e, _, hst⟩ := hst
      exact hi.step hst
  intro hmem
  have := hle m _ hmem
  omega

end Xv6.Thread
