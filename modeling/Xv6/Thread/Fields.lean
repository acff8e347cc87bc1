import Xv6.Thread.Calls

namespace Xv6.Thread

open Xv6.Lib

/-!
# Threads — fields that few operations change

The size, the memory limit, the return value and the thread that runs next are set by a few
operations, each in the slots of one process.  This module says for every step of the machine
what it does to them:

* `quiet_kept` — most steps change none of these fields;
* `Resets`, `KernelInv.step_kept` — the list of what the others do to them is complete.
-/

/-- These fields of a slot. -/
structure Kept where
  sz : Nat
  memoryLimit : Nat
  retval : Nat
  currentThread : Option Slot

/-- The fields of a slot. -/
def Proc.kept (q : Proc) : Kept where
  sz := q.sz
  memoryLimit := q.memoryLimit
  retval := q.retval
  currentThread := q.currentThread

/-- The fields of the slots of the table. -/
def Kernel.kept (k : Kernel) (i : Slot) : Kept := (k.proc i).kept

variable {D W : Prop} {k k' : Kernel} {c m np p : Slot}

/-! ### Assignments -/

theorem kept_setProc (f : Proc → Proc) :
    (k.setProc p f).kept = Function.update k.kept p (f (k.proc p)).kept := by
  funext i
  by_cases h : i = p
  · subst h; simp [Kernel.kept, Kernel.setProc]
  · simp [Kernel.kept, Kernel.setProc, h]

theorem kept_setProc_eq {f : Proc → Proc} (h : (f (k.proc p)).kept = (k.proc p).kept) :
    (k.setProc p f).kept = k.kept := by
  rw [kept_setProc, h]
  exact Function.update_eq_self _ _

@[simp] theorem kept_setCall (x : Call) : (k.setCall p x).kept = k.kept := rfl

@[simp] theorem kept_setWalk (w : Walk) : (k.setWalk p w).kept = k.kept := rfl

@[simp] theorem kept_ret (r : Int) : (k.ret p r).kept = k.kept := by
  rw [Kernel.ret, kept_setCall, kept_setProc_eq rfl]

theorem kept_wakeup1 (chan : Option Chan) : (wakeup1 k chan).kept = k.kept := by
  funext i
  show (wakeOne chan (k.proc i)).kept = _
  rw [wakeOne]
  split <;> rfl

theorem kept_sleep (chan : Chan) : (sleep k c chan).kept = k.kept := by
  rw [sleep, kept_setProc_eq rfl]
  rfl

theorem kept_reparent : (reparent k c).kept = k.kept := by
  have h : ({ k with proc := fun i => if (k.proc i).parent = some c then
      { k.proc i with parent := k.initproc } else k.proc i } : Kernel).kept = k.kept := by
    funext i
    show Proc.kept (if (k.proc i).parent = some c then _ else _) = _
    split <;> rfl
  rw [reparent]
  split
  · rw [kept_wakeup1, h]
  · exact h

theorem kept_zombie (r : Nat) :
    (zombie k c r).kept = Function.update k.kept c { k.kept c with retval := r } := by
  rw [zombie, kept_setWalk, kept_setCall, kept_setProc]
  rfl

theorem kept_freeThread : (freeThread k p).kept = k.kept := by
  rw [freeThread, kept_setWalk, kept_setCall, kept_setProc_eq rfl]

theorem kept_closeFile {fd : Nat} (hs : closeFile k p fd = .ok k') : k'.kept = k.kept := by
  obtain ⟨f, hf, rfl⟩ := closeFile_ok hs
  obtain ⟨o, w, hq⟩ := hf (k.proc p)
  exact kept_setProc_eq (by rw [hq]; rfl)

/-- The loop that releases threads keeps the fields, whatever the list is. -/
theorem kept_freeThreads {cond : Kernel → Slot → Bool} {n : Nat} {h : Option Slot}
    (hs : freeThreads cond n k h = .ok k') : k'.kept = k.kept := by
  induction n generalizing k h with
  | zero =>
    cases h with
    | none => cases hs; rfl
    | some p => cases hs
  | succ n ih =>
    cases h with
    | none => cases hs; rfl
    | some p =>
      rw [freeThreads] at hs
      rw [ih hs]
      split
      · exact kept_freeThread
      · rfl

/-! ### Quiet steps -/

/-- The steps that change none of the fields. -/
def Step.quiet : Step → Bool
  | .forkRun | .exitBegin | .threadExitBegin _ | .closeFiles | .exit | .wait | .sbrk _ | .kill _
  | .fdalloc _ | .close _ | .chdir _ | .sleep _ | .yield | .wakeup _ => true
  | _ => false

theorem kept_exitBegin (hs : exitBegin k c = .ok k') : k'.kept = k.kept := by
  rw [exitBegin] at hs
  split at hs
  · cases hs
  · obtain ⟨m, _, hs⟩ := bind_eq_ok.mp hs
    cases hs
    rfl

theorem kept_closeFiles (hs : closeFiles k c = .ok k') : k'.kept = k.kept := by
  rw [closeFiles] at hs
  split at hs
  · cases hs
  · cases hs
  · cases hs; rfl
  · obtain ⟨k₁, hk₁, hs⟩ := bind_eq_ok.mp hs
    cases hs
    rw [kept_setWalk, kept_closeFile hk₁]
  · split at hs <;> (cases hs; rfl)
  · obtain ⟨k₁, hk₁, hs⟩ := bind_eq_ok.mp hs
    cases hs
    rw [kept_setWalk, kept_closeFile hk₁]

theorem kept_exit (hs : exit k c = .ok k') : k'.kept = k.kept := by
  obtain ⟨k₁, hk₁, hs⟩ := bind_eq_ok.mp hs
  cases hs
  rw [kept_zombie, kept_reparent, kept_wakeup1, kept_freeThreads hk₁]
  refine Function.update_eq_iff.mpr ⟨?_, fun _ _ => rfl⟩
  have hr : ((wakeup1 k₁ ((k₁.proc c).parent.map .proc)).proc c).retval = (k.kept c).retval := by
    have := congrArg Kept.retval (congrFun (kept_wakeup1 (k := k₁)
      ((k₁.proc c).parent.map .proc)) c)
    rw [kept_freeThreads hk₁] at this
    exact this
  rw [hr]

theorem kept_wait (hs : wait k c = .ok k') : k'.kept = k.kept := by
  rw [wait] at hs
  split at hs
  · obtain ⟨m, _, hs⟩ := bind_eq_ok.mp hs
    obtain ⟨k₁, hk₁, hs⟩ := bind_eq_ok.mp hs
    obtain ⟨d, _, rfl⟩ := freevm_ok hk₁
    cases hs
    rw [kept_ret, kept_setProc_eq rfl]
    rfl
  · split at hs
    · cases hs; exact kept_ret _
    · cases hs; rw [kept_sleep, kept_setCall]

/-- The quiet steps change none of the fields. -/
theorem quiet_kept {e : Step} (he : e.quiet = true) (hs : step k e = .ok k') : k'.kept = k.kept := by
  rw [step] at hs
  split at hs
  · cases hs
  cases e with
  | forkRun =>
    obtain ⟨c, _, hs⟩ := byProc_ok hs
    split at hs
    · cases hs
      rw [forkRun, kept_ret, kept_setProc_eq rfl]
    · cases hs
  | exitBegin =>
    obtain ⟨c, _, _, hs⟩ := byUser_ok hs
    exact kept_exitBegin hs
  | threadExitBegin retval =>
    obtain ⟨c, _, _, hs⟩ := byUser_ok hs
    rw [threadExitBegin] at hs
    split at hs
    · exact kept_exitBegin hs
    · cases hs; rfl
  | closeFiles =>
    obtain ⟨c, _, hs⟩ := byProc_ok hs
    exact kept_closeFiles hs
  | exit =>
    obtain ⟨c, _, hs⟩ := byProc_ok hs
    split at hs
    · exact kept_exit hs
    · cases hs
  | wait =>
    obtain ⟨c, _, hs⟩ := byProc_ok hs
    split at hs
    · exact kept_wait hs
    · cases hs
  | sbrk n =>
    obtain ⟨c, _, _, hs⟩ := byUser_ok hs
    rw [sbrk] at hs
    split at hs
    · cases hs; rfl
    · cases hs
  | kill pid =>
    obtain ⟨c, _, _, hs⟩ := byUser_ok hs
    cases hs
    rw [kill]
    split
    · exact kept_ret _
    · rw [kept_ret, kept_setProc_eq rfl]
  | fdalloc f =>
    obtain ⟨c, _, _, hs⟩ := byUser_ok hs
    cases hs
    rw [fdalloc]
    split
    · exact kept_ret _
    · rw [kept_ret, kept_setProc_eq rfl]
  | close fd =>
    obtain ⟨c, _, _, hs⟩ := byUser_ok hs
    cases hs
    rw [close]
    split
    · exact kept_ret _
    · rw [kept_ret, kept_setProc_eq rfl]
  | chdir ip =>
    obtain ⟨c, _, _, hs⟩ := byUser_ok hs
    cases hs
    rw [chdir, kept_ret, kept_setProc_eq rfl]
  | sleep chan =>
    obtain ⟨c, _, hs⟩ := byProc_ok hs
    split at hs
    · cases hs
    · cases hs; exact kept_sleep chan
  | yield =>
    obtain ⟨c, _, hs⟩ := byProc_ok hs
    cases hs
    rw [yield, kept_setProc_eq rfl]
    rfl
  | wakeup chan =>
    cases hs
    exact kept_wakeup1 _
  | _ => cases he

/-! ### The other steps -/

theorem kept_initSlot : (initSlot k p).kept =
    Function.update k.kept p { k.kept p with currentThread := some p } := by
  rw [initSlot, kept_setProc]
  rfl

/-- `allocproc` sets the thread that runs next in the slot that it takes. -/
theorem kept_allocproc {next : Slot → Call} {ok : Bool} (hp : firstUnused k = some p) :
    (allocproc k c next ok).kept =
      Function.update k.kept p { k.kept p with currentThread := some p } := by
  rw [allocproc, hp]
  dsimp only
  split
  · rw [kept_setCall, kept_setProc_eq rfl, kept_initSlot]
  · rw [kept_ret, kept_setProc_eq rfl, kept_initSlot]

/-- `fork` copies the size of the process. -/
theorem kept_forkCopy {dir : Option Nat} (hs : forkCopy k c np dir = .ok k') :
    k'.kept = k.kept ∨ ∃ m, (k.proc c).mainThread = some m ∧ k'.kept =
      Function.update k.kept np { k.kept np with sz := (k.proc m).sz } := by
  cases dir with
  | none =>
    cases hs
    rw [kept_ret, kept_setProc_eq rfl]
    exact .inl rfl
  | some d =>
    obtain ⟨k₁, hk₁, hs⟩ := bind_eq_ok.mp hs
    obtain ⟨_, rfl⟩ := newDir_ok hk₁
    obtain ⟨m, hm, hs⟩ := bind_eq_ok.mp hs
    cases hs
    refine .inr ⟨m, deref_ok hm, ?_⟩
    rw [kept_setCall, kept_setProc]
    rfl

theorem kept_setSz (sz : Nat) (xs : List Slot) : (setSz k sz xs).kept =
    fun q => if q ∈ xs then { k.kept q with sz := sz } else k.kept q := by
  rw [setSz_eq]
  funext q
  simp only [Kernel.kept]
  split <;> rfl

theorem kept_attach : (attach k c m np).kept = k.kept := by
  rw [attach, kept_setProc_eq rfl, kept_setProc_eq rfl]

theorem kept_linked {z : Slot} : (linked k c z np).kept = k.kept := by
  rw [linked, kept_setProc_eq rfl, kept_setProc_eq rfl, kept_setProc_eq rfl]

/-- The size of the slots `S` is set, and no other of the fields. -/
def SetsSz (k k' : Kernel) (S : Slot → Prop) (sz : Nat) : Prop :=
  ∀ q, (S q → k'.kept q = { k.kept q with sz := sz }) ∧ (¬ S q → k'.kept q = k.kept q)

theorem setsSz_setSz (sz : Nat) (xs : List Slot) : SetsSz k (setSz k sz xs) (· ∈ xs) sz := by
  intro q
  rw [kept_setSz]
  exact ⟨fun hq => if_pos hq, fun hq => if_neg hq⟩

theorem kept_setSize (sz : Nat) (q : Slot) :
    { (k.setProc p fun q => { q with sz := sz }).kept q with sz := sz } =
      { k.kept q with sz := sz } := by
  rw [kept_setProc]
  by_cases hq : q = p
  · subst hq; rw [Function.update_self]; rfl
  · rw [Function.update_of_ne hq]

/-- A `thread_create` without memory sets the size of two slots only. -/
theorem kept_leaked (hnm : np ≠ m) (sz : Nat) : SetsSz k
    { ((((attach k c m np).setProc np fun q => { q with sz := sz }).setProc m fun q =>
      { q with sz := sz }).setProc np fun q => { q with state := .UNUSED }).ret c (-1) with
      ptableLocked := true } (fun q => q = m ∨ q = np) sz := by
  intro q
  show (_ → Kernel.kept (Kernel.ret _ c (-1)) q = _) ∧ (_ → Kernel.kept (Kernel.ret _ c (-1)) q = _)
  rw [kept_ret, kept_setProc_eq rfl, kept_setProc, kept_setProc, kept_attach]
  refine ⟨?_, fun hq => ?_⟩
  · rintro (rfl | rfl)
    · rw [Function.update_self, setProc_other hnm.symm]
      show { (attach k c q np).kept q with sz := sz } = _
      rw [kept_attach]
    · rw [Function.update_of_ne hnm, Function.update_self]
      show { (attach k c m q).kept q with sz := sz } = _
      rw [kept_attach]
  · rw [not_or] at hq
    rw [Function.update_of_ne hq.1, Function.update_of_ne hq.2]

/-- `thread_create` that succeeds sets the size of all threads of the process. -/
theorem KernelInv.kept_createFinish (h : KernelInv D W k) (hc : k.cpuProc = some c)
    (hcall : k.call c = .create m np) {ok : Bool}
    (hs : Thread.createFinish k c m np ok = .ok k') :
    (k'.kept = k.kept ∧ ¬ Live k'.view np) ∨
    (¬ overLimit k m (stackSize k m ok) ∧ ¬ Live k'.view np ∧ k'.ptableLocked = true ∧
      SetsSz k k' (fun q => q = m ∨ q = np) (stackSize k m ok)) ∨
    (¬ overLimit k m (stackSize k m ok) ∧ stackSize k m ok ≠ 0 ∧
      SetsSz k k' (fun q => Member k.view m q ∨ q = np) (stackSize k m ok)) := by
  have hok := h.inv.calls c
  rw [hcall] at hok
  obtain ⟨hemb, hm⟩ := hok
  obtain ⟨_, hlead, _⟩ := h.inv.leader_of_active (h.cpu c hc) hm
  have hnm : np ≠ m := h.inv.new_ne (by rw [hcall]; rfl) hlead.1
  rcases h.createFinish_ok hc hcall hs with ⟨_, rfl⟩ | ⟨hlim, rfl⟩ | ⟨hlim, hne, ys, z, _, hx, rfl⟩
  · refine .inl ⟨by rw [kept_ret, kept_attach], not_live_of_embryo ?_⟩
    rw [view_ret, view_attach hnm, Function.update_self]
    exact hemb
  · refine .inr (.inl ⟨hlim, not_live_of_unused ?_, rfl, kept_leaked hnm _⟩)
    generalize stackSize k m ok = newsz
    show ((Kernel.ret _ c (-1)).view np).life = _
    rw [view_ret, view_setProc, Function.update_self]
    rfl
  · refine .inr (.inr ⟨hlim, hne, fun q => ?_⟩)
    generalize stackSize k m ok = newsz
    have hbase : q ≠ np → q ≠ m → (linked ((((attach k c m np).setProc np fun q =>
        { q with sz := newsz }).setProc m fun q => { q with sz := newsz }).ret c 0) c z np).kept q =
        k.kept q := fun hqn hqm => by
      rw [kept_linked, kept_ret, kept_setProc, kept_setProc, kept_attach,
        Function.update_of_ne hqm, Function.update_of_ne hqn]
    have hany : ∀ q, { (linked ((((attach k c m np).setProc np fun q =>
        { q with sz := newsz }).setProc m fun q => { q with sz := newsz }).ret c 0) c z np).kept q
        with sz := newsz } = { k.kept q with sz := newsz } := fun q => by
      rw [kept_linked, kept_ret, kept_setSize, kept_setSize, kept_attach]
    have hmem : q ∈ ys ++ [z] ++ [np] ↔ Member k.view m q ∨ q = np := by
      rw [List.mem_append, hx, List.mem_singleton]
    refine ⟨fun hq => ?_, fun hq => ?_⟩
    · rw [(setsSz_setSz _ _ q).1 (hmem.mpr hq), hany q]
    · rw [(setsSz_setSz _ _ q).2 fun hh => hq (hmem.mp hh)]
      rw [not_or] at hq
      exact hbase hq.2 fun hqm => hq.1 (hqm ▸ hlead)

/-- The fields after a `thread_join` of the first thread. -/
theorem kept_joined : ((freeThread (unlinked k c m p) p).ret c 0).kept =
    Function.update k.kept m { k.kept m with
      currentThread := if (k.proc m).currentThread = some p then some m
        else (k.proc m).currentThread } := by
  rw [kept_ret, kept_freeThread, unlinked, kept_setProc, kept_setProc_eq rfl]
  congr 1
  by_cases hmc : m = c
  · subst hmc; rw [setProc_self]; rfl
  · rw [setProc_other hmc]; rfl

/-- `thread_join` of the first thread moves the thread that runs next off it. -/
theorem KernelInv.kept_joinCheck (hp : Member k.view m p) (hpm : p ≠ m) (hpc : p ≠ c)
    (hfirst : FirstIfZombie k m p) (hs : Thread.joinCheck k c m p = .ok k') : k'.kept = k.kept ∨
    ((k.proc p).state = .ZOMBIE ∧ k'.kept = Function.update k.kept m { k.kept m with
      currentThread := if (k.proc m).currentThread = some p then some m
        else (k.proc m).currentThread }) := by
  by_cases hz : (k.proc p).state = .ZOMBIE
  · refine .inr ⟨hz, ?_⟩
    rw [joinCheck_first hz (hfirst hz) hp.2 hpm hpc] at hs
    cases hs
    exact kept_joined
  · rw [Thread.joinCheck, if_pos hz] at hs
    cases hs
    rw [kept_sleep, kept_setCall]
    exact .inl rfl

/-- `exec` sets the size of the caller. -/
theorem kept_execCommit {d sz : Nat} (hs : execCommit k c d sz = .ok k') :
    sz < KERNBASE ∧ k'.kept = Function.update k.kept c { k.kept c with sz := sz } := by
  rw [execCommit] at hs
  split at hs
  · cases hs
  · rename_i hlt
    obtain ⟨k₁, hk₁, hs⟩ := bind_eq_ok.mp hs
    obtain ⟨_, rfl⟩ := newDir_ok hk₁
    obtain ⟨m, _, hs⟩ := bind_eq_ok.mp hs
    refine ⟨by omega, ?_⟩
    split at hs
    · cases hs
      rw [kept_ret, kept_setProc]
      rfl
    · cases hs
      rw [kept_setWalk, kept_setCall, kept_setProc]
      rfl

/-- At the end of `exec` the caller is the thread that runs next. -/
theorem kept_execFinish {old : Option Nat} (hs : execFinish k c old = .ok k') :
    k'.kept = Function.update k.kept c { k.kept c with currentThread := some c } := by
  obtain ⟨k₂, hk₂, hs⟩ := bind_eq_ok.mp hs
  obtain ⟨k₁, hk₁, hk₂⟩ := bind_eq_ok.mp hk₂
  cases hk₂
  obtain ⟨d, _, rfl⟩ := freevm_ok hs
  have hfree := kept_freeThreads hk₁
  show ((k₁.setProc c _).ret c 0).kept = _
  rw [kept_ret, kept_setProc, hfree]
  congr 1
  show { k₁.kept c with currentThread := some c } = _
  rw [hfree]

/-- `sbrk` that succeeds sets the size of all threads of the process, and returns the size that
    was read before. -/
theorem KernelInv.kept_sbrkGrow (h : KernelInv D W k) (hc : k.cpuProc = some c) {addr : Nat} {n : Int}
    {ok : Bool} (hs : Thread.sbrkGrow k c addr n ok = .ok k') :
    (k'.kept = k.kept ∧ (k'.proc c).eax = -1) ∨
    ∃ m sz, (k.proc c).mainThread = some m ∧ newSize k m n ok = some sz ∧
      SetsSz k k' (Member k.view m) sz ∧ (k'.proc c).eax = addr := by
  have hact := h.cpu c hc
  obtain ⟨r, hr, hs⟩ := bind_eq_ok.mp hs
  rcases growproc_ok hr with rfl | ⟨m, sz, ys, hm, hsz, hys, rfl⟩
  · cases hs
    exact .inl ⟨kept_ret _, by rw [Kernel.ret, proc_setCall, setProc_self]⟩
  · cases hs
    obtain ⟨_, hlead, hmact⟩ := h.inv.leader_of_active hact hm
    obtain ⟨xs, hxs, hx⟩ := (h.inv.groups m).list hlead hmact
    have hwalk : walkList k.next NPROC (some m) = some xs :=
      walkList_eq hxs (by simpa using hxs.length_le)
    rw [hwalk] at hys
    cases hys
    refine .inr ⟨m, sz, hm, hsz, fun q => ?_, by rw [Kernel.ret, proc_setCall, setProc_self]⟩
    rw [kept_ret]
    exact ⟨fun hq => (setsSz_setSz sz ys q).1 ((hx q).mpr hq),
      fun hq => (setsSz_setSz sz ys q).2 fun hh => hq ((hx q).mp hh)⟩

/-- `setmemorylimit` that succeeds sets the limit in the slot of the main thread. -/
theorem kept_setmemorylimit {pid limit : Int}
    (hs : step k (.setmemorylimit pid limit) = .ok k') : ∃ c, k.cpuProc = some c ∧
    ((k'.kept = k.kept ∧ (k'.proc c).eax = -1) ∨
    ∃ p m, (k.proc p).mainThread = some m ∧ (k.proc p).pid = pid ∧ limitSlot k pid = some p ∧
      (k.proc p).state ≠ .UNUSED ∧ 0 ≤ limit ∧ (k.proc p).sz ≤ limit.toNat ∧
      (k'.proc c).eax = 0 ∧
      k'.kept = Function.update k.kept m { k.kept m with memoryLimit := limit.toNat }) := by
  rw [step] at hs
  split at hs
  · cases hs
  obtain ⟨c, hc, _, hs⟩ := byUser_ok hs
  obtain ⟨r, hr, hs⟩ := bind_eq_ok.mp hs
  refine ⟨c, hc, ?_⟩
  rcases setmemorylimit_ok hr with rfl | ⟨p, m, h₁, h₂, h₃, h₄, h₅, h₆, rfl⟩
  · cases hs
    exact .inl ⟨kept_ret _, by rw [Kernel.ret, proc_setCall, setProc_self]⟩
  · cases hs
    refine .inr ⟨p, m, h₁, h₂, h₃, h₄, h₅, h₆, by rw [Kernel.ret, proc_setCall, setProc_self], ?_⟩
    rw [kept_ret, kept_setProc]
    rfl

/-- `scheduler` sets the thread that runs next to the one that it starts. -/
theorem kept_schedule (hs : schedule k = .ok k') : k'.kept = k.kept ∨
    ∃ p m cur t, (k.proc p).state = .RUNNABLE ∧ (k.proc p).mainThread = some m ∧
      (k.proc m).currentThread = some cur ∧ pickThread k m NPROC cur = some t ∧
      k'.kept = Function.update k.kept m { k.kept m with currentThread := some t } := by
  rw [schedule] at hs
  split at hs
  · cases hs
  · split at hs
    · cases hs; exact .inl rfl
    · rename_i p hp
      have hrun := List.find?_some hp
      simp only [decide_eq_true_eq] at hrun
      obtain ⟨m, hm, hs⟩ := bind_eq_ok.mp hs
      obtain ⟨cur, hcur, hs⟩ := bind_eq_ok.mp hs
      split at hs
      · cases hs
      · rename_i t ht
        cases hs
        refine .inr ⟨p, m, cur, t, hrun.2, deref_ok hm, deref_ok hcur, ht, ?_⟩
        rw [kept_setProc_eq rfl, kept_setProc]
        rfl

/-! ### One field -/

/-- A field that an assignment does not change. -/
theorem kept_of_update {α : Type} (f : Kept → α) {w : Kept} {q : Slot}
    (heq : k'.kept = Function.update k.kept p w) (hw : q = p → f w = f (k.kept p)) :
    f (k'.kept q) = f (k.kept q) := by
  rw [heq]
  by_cases hq : q = p
  · subst hq
    rw [Function.update_self]
    exact hw rfl
  · rw [Function.update_of_ne hq]

/-- A field other than the size. -/
theorem SetsSz.other {α : Type} (f : Kept → α) (hf : ∀ w sz, f { w with sz := sz } = f w)
    {S : Slot → Prop} {sz : Nat} (h : SetsSz k k' S sz) (q : Slot) :
    f (k'.kept q) = f (k.kept q) := by
  by_cases hq : S q
  · rw [(h q).1 hq, hf]
  · rw [(h q).2 hq]

/-- The size. -/
theorem SetsSz.sz {S : Slot → Prop} {sz : Nat} (h : SetsSz k k' S sz) (q : Slot) :
    (S q ∧ (k'.proc q).sz = sz) ∨ (¬ S q ∧ (k'.proc q).sz = (k.proc q).sz) := by
  by_cases hq : S q
  · exact .inl ⟨hq, congrArg Kept.sz ((h q).1 hq)⟩
  · exact .inr ⟨hq, congrArg Kept.sz ((h q).2 hq)⟩

/-! ### All steps -/

/-- What a step `e` can do to the fields. -/
inductive Resets (k : Kernel) (e : Step) (k' : Kernel) : Prop
  /-- Nothing. -/
  | same (h : k'.kept = k.kept)
  /-- `allocproc` takes a slot. -/
  | allocated (p : Slot) (hp : firstUnused k = some p)
      (h : k'.kept = Function.update k.kept p { k.kept p with currentThread := some p })
  /-- `fork` copies the size of the process. -/
  | forked (c m np : Slot) (hc : k.cpuProc = some c) (hcall : k.call c = .fork np)
      (hm : (k.proc c).mainThread = some m)
      (h : k'.kept = Function.update k.kept np { k.kept np with sz := (k.proc m).sz })
  /-- `thread_create` sets the size of all threads of the process. -/
  | created (c m np : Slot) (ok : Bool) (he : e = .createFinish ok) (hc : k.cpuProc = some c)
      (hcall : k.call c = .create m np) (hlim : ¬ overLimit k m (stackSize k m ok))
      (hne : stackSize k m ok ≠ 0)
      (h : SetsSz k k' (fun q => Member k.view m q ∨ q = np) (stackSize k m ok))
  /-- `thread_create` has no memory for the stack, and returns with the lock held. -/
  | leaked (c m np : Slot) (ok : Bool) (he : e = .createFinish ok) (hc : k.cpuProc = some c)
      (hcall : k.call c = .create m np) (hlim : ¬ overLimit k m (stackSize k m ok))
      (h : SetsSz k k' (fun q => q = m ∨ q = np) (stackSize k m ok))
      (hlocked : k'.ptableLocked = true)
  /-- `thread_exit` stores its argument. -/
  | stopped (c : Slot) (r : Nat) (he : e = .threadExit) (hc : k.cpuProc = some c)
      (hcall : k.call c = .threadExit r)
      (h : k'.kept = Function.update k.kept c { k.kept c with retval := r })
  /-- `thread_join` moves the thread that runs next off the one that it releases. -/
  | joined (c m p : Slot) (he : e.joins = true) (hc : k.cpuProc = some c) (hm : Runs k.view m c)
      (hp : Member k.view m p) (hpm : p ≠ m) (hz : (k.proc p).state = .ZOMBIE)
      (h : k'.kept = Function.update k.kept m { k.kept m with
        currentThread := if (k.proc m).currentThread = some p then some m
          else (k.proc m).currentThread })
  /-- `exec` sets the size of the caller. -/
  | committed (c : Slot) (d sz : Nat) (he : e = .execCommit d sz) (hc : k.cpuProc = some c)
      (hlt : sz < KERNBASE) (h : k'.kept = Function.update k.kept c { k.kept c with sz := sz })
  /-- The caller of `exec` is the thread that runs next. -/
  | replaced (c : Slot) (he : e = .execFinish) (hc : k.cpuProc = some c)
      (h : k'.kept = Function.update k.kept c { k.kept c with currentThread := some c })
  /-- `sbrk` sets the size of all threads of the process. -/
  | grown (c m : Slot) (addr : Nat) (n : Int) (ok : Bool) (sz : Nat) (he : e = .growproc ok)
      (hc : k.cpuProc = some c) (hcall : k.call c = .sbrk addr n)
      (hm : (k.proc c).mainThread = some m) (hsz : newSize k m n ok = some sz)
      (h : SetsSz k k' (Member k.view m) sz)
  /-- `setmemorylimit` sets the limit in the slot of the main thread. -/
  | limited (p m : Slot) (pid limit : Int) (he : e = .setmemorylimit pid limit)
      (hm : (k.proc p).mainThread = some m) (hpid : (k.proc p).pid = pid)
      (hst : (k.proc p).state ≠ .UNUSED) (hsz : (k.proc p).sz ≤ limit.toNat)
      (h : k'.kept = Function.update k.kept m { k.kept m with memoryLimit := limit.toNat })
  /-- `scheduler` sets the thread that runs next. -/
  | scheduled (p m cur t : Slot) (hp : (k.proc p).state = .RUNNABLE)
      (hm : (k.proc p).mainThread = some m) (hcur : (k.proc m).currentThread = some cur)
      (ht : pickThread k m NPROC cur = some t)
      (h : k'.kept = Function.update k.kept m { k.kept m with currentThread := some t })

theorem allocproc_resets {next : Slot → Call} {ok : Bool} {e : Step} :
    Resets k e (allocproc k c next ok) := by
  cases hp : firstUnused k with
  | none =>
    rw [allocproc, hp]
    exact .same (kept_ret _)
  | some p => exact .allocated p hp (kept_allocproc hp)

theorem KernelInv.joinCheck_resets (h : KernelInv D W k) (hc : k.cpuProc = some c)
    (hm : (k.view c).main = some m) (hp : Member k.view m p) (hpm : p ≠ m)
    (hfirst : FirstIfZombie k m p) (hs : Thread.joinCheck k c m p = .ok k') {e : Step}
    (he : e.joins = true) : Resets k e k' := by
  have hact := h.cpu c hc
  by_cases hpc : p = c
  · -- a thread that waits for itself goes on to sleep
    subst hpc
    have hz : (k.proc p).state ≠ .ZOMBIE := fun hz => by
      simp [Kernel.view, Proc.view, hz, ProcState.life] at hact
    rw [Thread.joinCheck, if_pos hz] at hs
    cases hs
    exact .same (by rw [kept_sleep, kept_setCall])
  · rcases kept_joinCheck hp hpm hpc hfirst hs with heq | ⟨hz, heq⟩
    · exact .same heq
    · exact .joined c m p he hc ⟨hact, hm⟩ hp hpm hz heq

/-- `thread_exit` stores its argument. -/
theorem kept_threadExit (hs : step k .threadExit = .ok k') : ∃ c r, k.cpuProc = some c ∧
    k.call c = .threadExit r ∧ k'.kept = Function.update k.kept c { k.kept c with retval := r } := by
  rw [step] at hs
  split at hs
  · cases hs
  obtain ⟨c, hc, hs⟩ := byProc_ok hs
  split at hs
  · rename_i retval hcall
    split at hs
    · cases hs
      refine ⟨c, retval, hc, hcall, ?_⟩
      rw [threadExit, kept_zombie, kept_reparent, kept_wakeup1]
    · cases hs
  · cases hs

/-- The list of what a step can do to the fields is complete. -/
theorem KernelInv.step_kept (h : KernelInv D W k) {e : Step} (he : KeepsGroups k e)
    (hs : Thread.step k e = .ok k') : Resets k e k' := by
  by_cases hquiet : e.quiet = true
  · exact .same (quiet_kept hquiet hs)
  by_cases hset : ∃ pid limit, e = .setmemorylimit pid limit
  · obtain ⟨pid, limit, rfl⟩ := hset
    obtain ⟨c, _, ⟨heq, _⟩ | ⟨p, m, hm, hpid, _, hst, _, hsz, _, heq⟩⟩ := kept_setmemorylimit hs
    · exact .same heq
    · exact .limited p m pid limit rfl hm hpid hst hsz heq
  by_cases hexit : e = .threadExit
  · subst hexit
    obtain ⟨c, r, hc, hcall, heq⟩ := kept_threadExit hs
    exact .stopped c r rfl hc hcall heq
  rw [Thread.step] at hs
  split at hs
  · cases hs
  cases e with
  | forkAlloc ok =>
    obtain ⟨c, _, _, hs⟩ := byUser_ok hs
    cases hs
    exact allocproc_resets
  | forkCopy dir =>
    obtain ⟨c, hc, hs⟩ := byProc_ok hs
    split at hs
    · rename_i np hcall
      rcases kept_forkCopy hs with heq | ⟨m, hm, heq⟩
      · exact .same heq
      · exact .forked c m np hc hcall hm heq
    · cases hs
  | createAlloc ok =>
    obtain ⟨c, _, _, hs⟩ := byUser_ok hs
    obtain ⟨m, _, hs⟩ := bind_eq_ok.mp hs
    cases hs
    exact allocproc_resets
  | createFinish ok =>
    obtain ⟨c, hc, hs⟩ := byProc_ok hs
    split at hs
    · rename_i m np hcall
      rcases h.kept_createFinish hc hcall hs with ⟨heq, _⟩ | ⟨hlim, _, hlk, hset⟩ |
        ⟨hlim, hne, hset⟩
      · exact .same heq
      · exact .leaked c m np ok rfl hc hcall hlim hset hlk
      · exact .created c m np ok rfl hc hcall hlim hne hset
    · cases hs
  | threadExit => exact absurd rfl hexit
  | threadJoin tid =>
    obtain ⟨c, hc, _, hs⟩ := byUser_ok hs
    obtain ⟨m, hm, hs⟩ := bind_eq_ok.mp hs
    have hm' : (k.view c).main = some m := deref_ok hm
    split at hs
    · cases hs
    · cases hs; exact .same (kept_ret _)
    · rename_i p hp
      obtain ⟨hpm, hpn, _⟩ := h.found_member (h.cpu c hc) hm' hp
      exact h.joinCheck_resets hc hm' hpm hpn (he c hc m hm' p hp) hs rfl
  | joinCheck =>
    obtain ⟨c, hc, hs⟩ := byProc_ok hs
    split at hs
    · rename_i m p hcall
      obtain ⟨hm, hp, hpm, _⟩ := h.inv.join_member hcall
      exact h.joinCheck_resets hc hm hp hpm (he c hc m p hcall) hs rfl
    · cases hs
  | execCommit d sz =>
    obtain ⟨c, hc, _, hs⟩ := byUser_ok hs
    obtain ⟨hlt, heq⟩ := kept_execCommit hs
    exact .committed c d sz rfl hc hlt heq
  | execFinish =>
    obtain ⟨c, hc, hs⟩ := byProc_ok hs
    split at hs
    · split at hs
      · exact .replaced c rfl hc (kept_execFinish hs)
      · cases hs
    · cases hs
  | growproc ok =>
    obtain ⟨c, hc, hs⟩ := byProc_ok hs
    split at hs
    · rename_i addr n hcall
      rcases h.kept_sbrkGrow hc hs with ⟨heq, _⟩ | ⟨m, sz, hm, hsz, hset, _⟩
      · exact .same heq
      · exact .grown c m addr n ok sz rfl hc hcall hm hsz hset
    · cases hs
  | schedule =>
    rcases kept_schedule hs with heq | ⟨p, m, cur, t, hp, hm, hcur, ht, heq⟩
    · exact .same heq
    · exact .scheduled p m cur t hp hm hcur ht heq
  | setmemorylimit pid limit => exact absurd ⟨pid, limit, rfl⟩ hset
  | _ => exact absurd rfl hquiet

end Xv6.Thread
