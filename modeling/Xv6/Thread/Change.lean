import Xv6.Thread.Calls

namespace Xv6.Thread

open Xv6.Lib

/-!
# Threads — what a step can do to the threads

`Change` lists everything that a step that keeps the groups together can do to the views of the
slots, with the process that makes the step; `KernelInv.step_change` shows that the list is
complete.  Invariants of runs are derived from it, and not from the code of the steps.
-/

/-- What a step `e` can do to the views of the machine `k`. -/
inductive Change (k : Kernel) (e : Step) (v' : Slot → View) : Prop
  /-- Nothing. -/
  | same (h : v' = k.view)
  /-- `allocproc` or a `fork` that is not finished: a slot that is no thread changes. -/
  | dead (p : Slot) (hp : ¬ Live k.view p) (hp' : ¬ Live v' p)
      (hnew : (v' p).life = .embryo →
        ((k.view p).life = .embryo ∧ (v' p).main = (k.view p).main ∧
          (v' p).pid = (k.view p).pid) ∨
        (e.allocates ∧ firstUnused k = some p ∧ (v' p).main = some p ∧ (v' p).pid = k.nextpid))
      (hrest : ∀ q, q ≠ p → v' q = k.view q)
  /-- The child of `fork` starts. -/
  | started (c np : Slot) (hc : k.cpuProc = some c) (hnew : NewProc k.view np)
      (h : v' = Function.update k.view np { k.view np with life := .active })
  /-- `thread_create` exceeds the memory limit and leaves its slot behind, or has no memory. -/
  | refused (c m np : Slot) (hc : k.cpuProc = some c) (hm : Runs k.view m c)
      (hnp : (k.view np).life = .embryo)
      (hnp' : (v' np).life = .unused ∨ ((v' np).life = .embryo ∧ (v' np).main = some m ∧
        (v' np).pid = (k.view m).pid))
      (hrest : ∀ q, q ≠ np → v' q = { k.view q with
        createNum := if q = m then (k.view q).createNum + 1 else (k.view q).createNum })
  /-- `thread_create` appends a thread behind the last one, `z`. -/
  | created (c m np z : Slot) (hc : k.cpuProc = some c) (hm : Runs k.view m c)
      (hnp : (k.view np).life = .embryo) (hz : Member k.view m z)
      (hself : v' np = { k.view np with
        life := .active, main := some m, next := none, pid := (k.view m).pid
        tid := (k.view m).createNum + 1, pgdir := (k.view c).pgdir, join := some c })
      (hrest : ∀ q, q ≠ np → v' q = { k.view q with
        next := if q = z then some np else (k.view q).next
        createNum := if q = m then (k.view q).createNum + 1 else (k.view q).createNum })
      (he : ∃ ok, e = .createFinish ok) (hcall : k.call c = .create m np)
  /-- `exit` releases the other threads of the process. -/
  | ended (c m : Slot) (he : e = .exit) (hc : k.cpuProc = some c) (hm : Runs k.view m c)
      (hfree : ∀ q, Member k.view m q → q ≠ c → v' q = (k.view q).freed)
      (hself : v' c = { k.view c with life := .zombie })
      (hrest : ∀ q, ¬ Member k.view m q → v' q = k.view q)
  /-- `thread_exit` of a thread. -/
  | stopped (c m : Slot) (he : e = .threadExit) (hc : k.cpuProc = some c) (hm : Runs k.view m c)
      (hcm : c ≠ m) (h : v' = Function.update k.view c { k.view c with life := .zombie })
  /-- `exec` changes to a new directory. -/
  | committed (c : Slot) (d sz : Nat) (he : e = .execCommit d sz) (hc : k.cpuProc = some c)
      (h : v' = Function.update k.view c { k.view c with pgdir := some d })
  /-- `exec` releases the other threads of the process. -/
  | replaced (c m : Slot) (he : e = .execFinish) (hc : k.cpuProc = some c) (hm : Runs k.view m c)
      (hfree : ∀ q, Member k.view m q → q ≠ c → v' q = (k.view q).freed)
      (hself : v' c = { k.view c with main := some c, tid := 0, createNum := 0, next := none })
      (hrest : ∀ q, ¬ Member k.view m q → v' q = k.view q)
  /-- `wait` reaps the last thread of a process. -/
  | reaped (c m p : Slot) (he : e = .wait) (hc : k.cpuProc = some c)
      (hz : (k.view p).life = .zombie) (hm : (k.view p).main = some m)
      (hlast : ∀ q, Member k.view m q → q = p)
      (h : v' = Function.update k.view p { k.view p with life := .unused, pid := 0 })
  /-- `thread_join` releases the first thread behind the main thread. -/
  | joined (c m p : Slot) (he : e.joins = true) (hc : k.cpuProc = some c) (hm : Runs k.view m c)
      (hp : Member k.view m p) (hpm : p ≠ m) (hz : (k.view p).life = .zombie)
      (hj : (k.view p).join = some c) (hnext : (k.view m).next = some p)
      (h : v' = Function.update (Function.update k.view m
        { k.view m with next := (k.view p).next }) p (k.view p).freed)

variable {D W : Prop} {k k' : Kernel} {c m np p : Slot} {e : Step}

/-! ### Steps that change no view -/

theorem view_sleep (hc : (k.view c).life = .active) (chan : Chan) :
    (sleep k c chan).view = k.view :=
  view_activate (k := { k with cpuProc := none }) rfl hc

theorem view_yield (hc : (k.view c).life = .active) : (yield k c).view = k.view :=
  view_activate (k := { k with cpuProc := none }) rfl hc

theorem view_exitBegin (hs : exitBegin k c = .ok k') : k'.view = k.view := by
  rw [exitBegin] at hs
  split at hs
  · cases hs
  · obtain ⟨m, _, hs⟩ := bind_eq_ok.mp hs
    cases hs
    rfl

theorem view_closeFile {fd : Nat} (hs : closeFile k p fd = .ok k') : k'.view = k.view := by
  obtain ⟨f, hf, rfl⟩ := closeFile_ok hs
  obtain ⟨o, w, hq⟩ := hf (k.proc p)
  exact view_setProc_eq (by rw [hq]; rfl)

theorem view_closeFiles (hs : closeFiles k c = .ok k') : k'.view = k.view := by
  rw [closeFiles] at hs
  split at hs
  · cases hs
  · cases hs
  · cases hs; rfl
  · obtain ⟨k₁, hk₁, hs⟩ := bind_eq_ok.mp hs
    cases hs
    rw [view_setWalk, view_closeFile hk₁]
  · split at hs <;> (cases hs; rfl)
  · obtain ⟨k₁, hk₁, hs⟩ := bind_eq_ok.mp hs
    cases hs
    rw [view_setWalk, view_closeFile hk₁]

theorem view_sbrkGrow {addr : Nat} {n : Int} {ok : Bool} (hs : sbrkGrow k c addr n ok = .ok k') :
    k'.view = k.view := by
  obtain ⟨r, hr, hs⟩ := bind_eq_ok.mp hs
  rcases growproc_ok hr with rfl | ⟨m, sz, xs, _, _, _, rfl⟩
  · cases hs; exact view_ret _
  · cases hs; rw [view_ret, view_setSz]

theorem view_schedule (hs : schedule k = .ok k') : k'.view = k.view := by
  rw [schedule] at hs
  split at hs
  · cases hs
  · split at hs
    · cases hs; rfl
    · rename_i p _
      obtain ⟨m, _, hs⟩ := bind_eq_ok.mp hs
      obtain ⟨cur, _, hs⟩ := bind_eq_ok.mp hs
      split at hs
      · cases hs
      · rename_i t ht
        have hact : (k.view t).life = .active := by
          simp [Kernel.view, Proc.view, pickThread_runnable ht, ProcState.life]
        cases hs
        generalize hk₁ : ({ k with cpuProc := some t, scan := p.val + 1 }.setProc m fun q =>
          { q with currentThread := some t }) = k₁
        have hview : k₁.view = k.view := by
          rw [← hk₁]
          exact view_setProc_eq (k := { k with cpuProc := some t, scan := p.val + 1 }) rfl
        exact (view_activate rfl (by rw [hview]; exact hact)).trans hview

/-! ### Steps that do -/

theorem allocproc_change {next : Slot → Call} {ok : Bool} (he : e.allocates = true) :
    Change k e (allocproc k c next ok).view := by
  rw [allocproc]
  split
  · exact .same (view_ret _)
  · rename_i p hp
    have hpu := firstUnused_spec hp
    have hinit : ∀ q, q ≠ p → (initSlot k p).view q = k.view q := fun q hq => by
      rw [view_initSlot, Function.update_of_ne hq]
    split
    · refine .dead p (not_live_of_unused hpu) (not_live_of_embryo ?_)
        (fun _ => .inr ⟨he, hp, ?_, ?_⟩) fun q hq => ?_
      · rw [view_setCall, view_setStack, view_initSlot, Function.update_self]
      · rw [view_setCall, view_setStack, view_initSlot, Function.update_self]
      · rw [view_setCall, view_setStack, view_initSlot, Function.update_self]
      · rw [view_setCall, view_setStack, hinit q hq]
    · have hdead : ((((initSlot k p).setProc p fun q => { q with kstack := false, state := .UNUSED }
          ).ret c (-1)).view p).life = .unused := by
        rw [view_ret, view_setProc, Function.update_self]
        rfl
      refine .dead p (not_live_of_unused hpu) (not_live_of_unused hdead) (fun hemb => ?_)
        fun q hq => ?_
      · rw [hdead] at hemb; cases hemb
      · rw [view_ret, view_setProc, Function.update_of_ne hq, hinit q hq]

theorem KernelInv.forkCopy_change (h : KernelInv D W k) (hcall : k.call c = .fork np)
    {dir : Option Nat} (hs : Thread.forkCopy k c np dir = .ok k') : Change k e k'.view := by
  have hemb : (k.view np).life = .embryo := h.inv.new_embryo (c := c) (by rw [hcall]; rfl)
  cases dir with
  | none =>
    cases hs
    have hdead : (((k.setProc np fun q => { q with pgdir := none, kstack := false, state := .UNUSED }
        ).ret c (-1)).view np).life = .unused := by
      rw [view_ret, view_setProc, Function.update_self]
      rfl
    refine .dead np (not_live_of_embryo hemb) (not_live_of_unused hdead) (fun hnew => ?_)
      fun q hq => ?_
    · rw [hdead] at hnew; cases hnew
    · rw [view_ret, view_setProc, Function.update_of_ne hq]
  | some d =>
    obtain ⟨k₁, hk₁, hs⟩ := bind_eq_ok.mp hs
    obtain ⟨_, rfl⟩ := newDir_ok hk₁
    obtain ⟨m, _, hs⟩ := bind_eq_ok.mp hs
    cases hs
    refine .dead np (not_live_of_embryo hemb) (not_live_of_embryo ?_)
      (fun _ => .inl ⟨hemb, ?_, ?_⟩) fun q hq => ?_
    · rw [view_setCall, view_setProc, Function.update_self]; exact hemb
    · rw [view_setCall, view_setProc, Function.update_self]; rfl
    · rw [view_setCall, view_setProc, Function.update_self]; rfl
    · rw [view_setCall, view_setProc, Function.update_of_ne hq]; rfl

theorem KernelInv.createFinish_change (h : KernelInv D W k) (hc : k.cpuProc = some c)
    (hcall : k.call c = .create m np) {ok : Bool}
    (hs : Thread.createFinish k c m np ok = .ok k') : Change k (.createFinish ok) k'.view := by
  have hact := h.cpu c hc
  have hnew : (k.call c).newSlot = some np := by rw [hcall]; rfl
  have hok := h.inv.calls c
  rw [hcall] at hok
  obtain ⟨hemb, hm⟩ := hok
  obtain ⟨_, hlead, _⟩ := h.inv.leader_of_active hact hm
  have hnm : np ≠ m := h.inv.new_ne hnew hlead.1
  have hattach : ∀ q, q ≠ np → (attach k c m np).view q = { k.view q with
      createNum := if q = m then (k.view q).createNum + 1 else (k.view q).createNum } := by
    intro q hq
    rw [view_attach hnm, Function.update_of_ne hq]
    by_cases hqm : q = m
    · subst hqm; simp
    · simp [hqm]
  rcases h.createFinish_ok hc hcall hs with ⟨_, rfl⟩ | ⟨_, rfl⟩ | ⟨_, _, ys, z, _, hx, rfl⟩
  · refine .refused c m np hc ⟨hact, hm⟩ hemb (.inr ⟨?_, ?_, ?_⟩) fun q hq => ?_
    · rw [view_ret, view_attach hnm, Function.update_self]; exact hemb
    · rw [view_ret, view_attach hnm, Function.update_self]
    · rw [view_ret, view_attach hnm, Function.update_self]
    · rw [view_ret, hattach q hq]
  · generalize stackSize k m ok = newsz
    refine .refused c m np hc ⟨hact, hm⟩ hemb (.inl ?_) fun q hq => ?_
    · show ((Kernel.ret _ c (-1)).view np).life = _
      rw [view_ret, view_setProc, Function.update_self]
      rfl
    · show (Kernel.ret _ c (-1)).view q = _
      rw [view_ret, view_setProc, Function.update_of_ne hq, view_setSize, view_setSize, hattach q hq]
  · have hmz : Member k.view m z := (hx z).mp (by simp)
    have hzn : z ≠ np := fun hzn => not_live_of_embryo hemb (hzn ▸ hmz.1)
    refine .created c m np z hc ⟨hact, hm⟩ hemb hmz ?_ (fun q hq => ?_) ⟨ok, rfl⟩ hcall
    · rw [view_setSz, view_linked hzn, Function.update_self, view_ret, view_setSize, view_setSize,
        view_attach hnm, Function.update_self]
    · rw [view_setSz, view_linked hzn, Function.update_of_ne hq, view_ret, view_setSize,
        view_setSize]
      by_cases hqz : q = z
      · subst hqz; simp [hattach q hq]
      · simp [hqz, hattach q hq]

theorem KernelInv.joinCheck_change (h : KernelInv D W k) (hc : k.cpuProc = some c)
    (hm : (k.view c).main = some m) (hp : Member k.view m p) (hpm : p ≠ m)
    (hj : (k.view p).join = some c) (hfirst : FirstIfZombie k m p)
    (he : e.joins = true) (hs : Thread.joinCheck k c m p = .ok k') : Change k e k'.view := by
  have hact := h.cpu c hc
  by_cases hz : (k.proc p).state = .ZOMBIE
  · have hz' : (k.view p).life = .zombie := by simp [Kernel.view, Proc.view, hz, ProcState.life]
    have hpc : p ≠ c := fun hpc => by rw [hpc, hact] at hz'; cases hz'
    rw [joinCheck_first hz (hfirst hz) hp.2 hpm hpc] at hs
    cases hs
    refine .joined c m p he hc ⟨hact, hm⟩ hp hpm hz' hj (hfirst hz) ?_
    rw [view_ret, view_freeThread, view_unlinked, Function.update_of_ne hpm]
  · rw [Thread.joinCheck, if_pos hz] at hs
    cases hs
    exact .same (view_sleep (k := k.setCall c (.join m p)) hact _)

theorem KernelInv.threadJoin_change (h : KernelInv D W k) (hc : k.cpuProc = some c) {tid : Nat}
    (hok : KeepsGroups k (.threadJoin tid)) (hs : Thread.threadJoin k c tid = .ok k') :
    Change k (.threadJoin tid) k'.view := by
  have hact := h.cpu c hc
  obtain ⟨m, hm, hs⟩ := bind_eq_ok.mp hs
  have hm' : (k.view c).main = some m := deref_ok hm
  split at hs
  · cases hs
  · cases hs; exact .same (view_ret _)
  · rename_i p hp
    obtain ⟨hpm, hpn, hj⟩ := h.found_member hact hm' hp
    exact h.joinCheck_change hc hm' hpm hpn hj (hok c hc m hm' p hp) rfl hs

/-- The list of changes is complete. -/
theorem KernelInv.step_change (h : KernelInv D W k) (he : KeepsGroups k e)
    (hs : Thread.step k e = .ok k') : Change k e k'.view := by
  rw [Thread.step] at hs
  split at hs
  · cases hs
  cases e with
  | forkAlloc ok =>
    obtain ⟨c, hc, _, hs⟩ := byUser_ok hs
    cases hs
    exact allocproc_change rfl
  | forkCopy dir =>
    obtain ⟨c, hc, hs⟩ := byProc_ok hs
    split at hs
    · exact h.forkCopy_change ‹_› hs
    · cases hs
  | forkRun =>
    obtain ⟨c, hc, hs⟩ := byProc_ok hs
    split at hs
    · rename_i np hcall
      cases hs
      have hnew := h.inv.calls c
      rw [hcall] at hnew
      refine .started c np hc hnew.1 ?_
      rw [Thread.forkRun, view_ret, view_setProc]
      rfl
    · cases hs
  | createAlloc ok =>
    obtain ⟨c, hc, _, hs⟩ := byUser_ok hs
    obtain ⟨m, _, hs⟩ := bind_eq_ok.mp hs
    cases hs
    exact allocproc_change rfl
  | createFinish ok =>
    obtain ⟨c, hc, hs⟩ := byProc_ok hs
    split at hs
    · exact h.createFinish_change hc ‹_› hs
    · cases hs
  | exitBegin =>
    obtain ⟨c, _, _, hs⟩ := byUser_ok hs
    exact .same (view_exitBegin hs)
  | threadExitBegin retval =>
    obtain ⟨c, _, _, hs⟩ := byUser_ok hs
    rw [Thread.threadExitBegin] at hs
    split at hs
    · exact .same (view_exitBegin hs)
    · cases hs; exact .same rfl
  | closeFiles =>
    obtain ⟨c, _, hs⟩ := byProc_ok hs
    exact .same (view_closeFiles hs)
  | exit =>
    obtain ⟨c, hc, hs⟩ := byProc_ok hs
    split at hs
    · obtain ⟨m, hrel, hself, _, _⟩ := h.exit_ok hc hs
      exact .ended c m rfl hc hrel.run hrel.freed hself hrel.rest
    · cases hs
  | threadExit =>
    obtain ⟨c, hc, hs⟩ := byProc_ok hs
    split at hs
    · rename_i retval hcall
      split at hs
      · cases hs
        have hact := h.cpu c hc
        have hcm := h.inv.calls c
        rw [hcall] at hcm
        obtain ⟨m, hm⟩ := (h.inv.slots c).main (.inl hact)
        refine .stopped c m rfl hc ⟨hact, hm⟩ (fun hh => hcm (hh ▸ hm)) ?_
        rw [Thread.threadExit, view_zombie, view_reparent, view_wakeup1]
      · cases hs
    · cases hs
  | wait =>
    obtain ⟨c, hc, hs⟩ := byProc_ok hs
    split at hs
    · rw [Thread.wait] at hs
      split at hs
      · rename_i p hp
        obtain ⟨m, d, hm, _, _, hlast, rfl⟩ := h.reap_ok hp (he c hc p hp) hs
        refine .reaped c m p rfl hc (zombieChild_spec hp) hm hlast ?_
        rw [view_ret, view_setProc]
        rfl
      · split at hs
        · cases hs; exact .same (view_ret _)
        · cases hs; exact .same (view_sleep (k := k.setCall c .wait) (h.cpu c hc) _)
    · cases hs
  | threadJoin tid =>
    obtain ⟨c, hc, _, hs⟩ := byUser_ok hs
    exact h.threadJoin_change hc he hs
  | joinCheck =>
    obtain ⟨c, hc, hs⟩ := byProc_ok hs
    split at hs
    · rename_i m p hcall
      obtain ⟨hm, hp, hpm, hj⟩ := h.inv.join_member hcall
      exact h.joinCheck_change hc hm hp hpm hj (he c hc m p hcall) rfl hs
    · cases hs
  | execCommit d sz =>
    obtain ⟨c, hc, _, hs⟩ := byUser_ok hs
    rw [Thread.execCommit] at hs
    split at hs
    · cases hs
    · obtain ⟨k₁, hk₁, hs⟩ := bind_eq_ok.mp hs
      obtain ⟨_, rfl⟩ := newDir_ok hk₁
      obtain ⟨m, _, hs⟩ := bind_eq_ok.mp hs
      refine .committed c d sz rfl hc ?_
      split at hs
      · cases hs; rw [view_ret, view_setProc]; rfl
      · cases hs; rw [view_setWalk, view_setCall, view_setProc]; rfl
  | execFinish =>
    obtain ⟨c, hc, hs⟩ := byProc_ok hs
    split at hs
    · split at hs
      · obtain ⟨m, d, _, hrel, hself, _, _⟩ := h.execFinish_ok hc hs
        exact .replaced c m rfl hc hrel.run hrel.freed hself hrel.rest
      · cases hs
    · cases hs
  | sbrk n =>
    obtain ⟨c, _, _, hs⟩ := byUser_ok hs
    rw [sbrk] at hs
    split at hs
    · cases hs; exact .same rfl
    · cases hs
  | growproc ok =>
    obtain ⟨c, _, hs⟩ := byProc_ok hs
    split at hs
    · exact .same (view_sbrkGrow hs)
    · cases hs
  | setmemorylimit pid limit =>
    obtain ⟨c, _, _, hs⟩ := byUser_ok hs
    obtain ⟨r, hr, hs⟩ := bind_eq_ok.mp hs
    rcases setmemorylimit_ok hr with rfl | ⟨p, m, _, _, _, _, _, _, rfl⟩
    · cases hs; exact .same (view_ret _)
    · cases hs; exact .same (by rw [view_ret, view_setProc_eq rfl])
  | kill pid =>
    obtain ⟨c, _, _, hs⟩ := byUser_ok hs
    cases hs
    exact .same view_kill
  | fdalloc f =>
    obtain ⟨c, _, _, hs⟩ := byUser_ok hs
    cases hs
    rw [Thread.fdalloc]
    split
    · exact .same (view_ret _)
    · exact .same (by rw [view_ret, view_setProc_eq rfl])
  | close fd =>
    obtain ⟨c, _, _, hs⟩ := byUser_ok hs
    cases hs
    rw [Thread.close]
    split
    · exact .same (view_ret _)
    · exact .same (by rw [view_ret, view_setProc_eq rfl])
  | chdir ip =>
    obtain ⟨c, _, _, hs⟩ := byUser_ok hs
    cases hs
    exact .same (by rw [chdir, view_ret, view_setProc_eq rfl])
  | sleep chan =>
    obtain ⟨c, hc, hs⟩ := byProc_ok hs
    split at hs
    · cases hs
    · cases hs; exact .same (view_sleep (h.cpu c hc) chan)
  | yield =>
    obtain ⟨c, hc, hs⟩ := byProc_ok hs
    cases hs
    exact .same (view_yield (h.cpu c hc))
  | wakeup chan =>
    cases hs
    exact .same (view_wakeup1 _)
  | schedule => exact .same (view_schedule hs)

/-! ### One slot -/

/-- What a step `e` can do to the view of the slot `q`. -/
inductive SlotChange (k : Kernel) (e : Step) (v' : Slot → View) (q : Slot) : Prop
  /-- Only the link to the next thread, the directory or the number of threads changes. -/
  | stays (hlife : (v' q).life = (k.view q).life) (hmain : (v' q).main = (k.view q).main)
      (hpid : (v' q).pid = (k.view q).pid) (htid : (v' q).tid = (k.view q).tid)
      (hjoin : (v' q).join = (k.view q).join)
      (hnum : (k.view q).createNum ≤ (v' q).createNum)
  /-- The slot is no thread, before and after. -/
  | dead (hq : ¬ Live k.view q) (hq' : ¬ Live v' q)
      (hnew : (v' q).life = .embryo →
        ((k.view q).life = .embryo ∧ (v' q).main = (k.view q).main ∧
          (v' q).pid = (k.view q).pid) ∨
        (e.allocates ∧ firstUnused k = some q ∧ (v' q).main = some q ∧ (v' q).pid = k.nextpid) ∨
        ((k.view q).life = .embryo ∧ ∃ m, Leader k.view m ∧ m ≠ q ∧ (v' q).main = some m ∧
          (v' q).pid = (k.view m).pid))
  /-- The thread is released. -/
  | freed (hq : Live k.view q) (hq' : (v' q).life = .unused)
  /-- The running process becomes a zombie. -/
  | ended (hc : k.cpuProc = some q) (he : e = .exit ∨ e = .threadExit)
      (h : v' q = { k.view q with life := .zombie })
      (hfree : e = .exit → ∀ m q', Runs k.view m q → Member k.view m q' → q' ≠ q →
        (v' q').life = .unused)
  /-- The child of a `fork` starts. -/
  | started (hnew : NewProc k.view q) (h : v' q = { k.view q with life := .active })
  /-- A new thread of the process of `m` starts. -/
  | created (c m : Slot) (hc : k.cpuProc = some c) (hm : Runs k.view m c)
      (hq : (k.view q).life = .embryo)
      (h : v' q = { k.view q with
        life := .active, main := some m, next := none, pid := (k.view m).pid
        tid := (k.view m).createNum + 1, pgdir := (k.view c).pgdir, join := some c })
      (hmain : v' m = { k.view m with
        next := (v' m).next, createNum := (k.view m).createNum + 1 })
      (he : ∃ ok, e = .createFinish ok) (hcall : k.call c = .create m q)
  /-- The running process is the main thread at the end of `exec`. -/
  | replaced (hc : k.cpuProc = some q) (he : e = .execFinish)
      (h : v' q = { k.view q with main := some q, tid := 0, createNum := 0, next := none })
      (hfree : ∀ m q', Runs k.view m q → Member k.view m q' → q' ≠ q → (v' q').life = .unused)

theorem SlotChange.of_eq {v' : Slot → View} {q : Slot} (h : v' q = k.view q) :
    SlotChange k e v' q := by
  refine .stays ?_ ?_ ?_ ?_ ?_ ?_
  all_goals rw [h]

/-- Every slot changes in one of these ways. -/
theorem Change.slot {v' : Slot → View} (h : Change k e v') (hD : KernelInv D W k) (q : Slot) :
    SlotChange k e v' q := by
  cases h with
  | same heq => exact .of_eq (by rw [heq])
  | dead p hp hp' hnew hrest =>
    by_cases hq : q = p
    · subst hq
      refine .dead hp hp' fun hemb => ?_
      rcases hnew hemb with hold | halloc
      · exact .inl hold
      · exact .inr (.inl halloc)
    · exact .of_eq (hrest q hq)
  | started c np _ hnew heq =>
    by_cases hq : q = np
    · subst hq; exact .started hnew (by rw [heq, Function.update_self])
    · exact .of_eq (by rw [heq, Function.update_of_ne hq])
  | refused c m np _ hm hnp hnp' hrest =>
    obtain ⟨_, hlead, _⟩ := hD.inv.leader_of_active hm.1 hm.2
    have hmn : m ≠ np := fun hmn => not_live_of_embryo hnp (hmn ▸ hlead.1)
    by_cases hq : q = np
    · subst hq
      rcases hnp' with hdead | ⟨hemb, hmain, hpid⟩
      · exact .dead (not_live_of_embryo hnp) (not_live_of_unused hdead) fun hemb => by
          rw [hdead] at hemb
          cases hemb
      · exact .dead (not_live_of_embryo hnp) (not_live_of_embryo hemb) fun _ =>
          .inr (.inr ⟨hnp, m, hlead, hmn, hmain, hpid⟩)
    · have hq' := hrest q hq
      refine .stays (by rw [hq']) (by rw [hq']) (by rw [hq']) (by rw [hq']) (by rw [hq']) ?_
      rw [hq']
      dsimp only
      split <;> omega
  | created c m np z hc hm hnp _ hself hrest he hcall =>
    obtain ⟨_, hlead, _⟩ := hD.inv.leader_of_active hm.1 hm.2
    have hmn : m ≠ np := fun hmn => not_live_of_embryo hnp (hmn ▸ hlead.1)
    by_cases hq : q = np
    · subst hq
      refine .created c m hc hm hnp hself ?_ he hcall
      have hm' := hrest m hmn
      rw [if_pos rfl] at hm'
      rw [hm']
    · have hq' := hrest q hq
      refine .stays (by rw [hq']) (by rw [hq']) (by rw [hq']) (by rw [hq']) (by rw [hq']) ?_
      rw [hq']
      dsimp only
      split <;> omega
  | ended c m he hc hm hfree hself hrest =>
    by_cases hq : Member k.view m q
    · by_cases hqc : q = c
      · subst hqc
        refine .ended hc (.inl he) hself fun _ m' q' hm' hq' hne => ?_
        cases Option.some.inj (hm'.2.symm.trans hm.2)
        rw [hfree q' hq' hne]
        rfl
      · exact .freed hq.1 (by rw [hfree q hq hqc]; rfl)
    · exact .of_eq (hrest q hq)
  | stopped c m he hc _ _ heq =>
    by_cases hq : q = c
    · subst hq
      exact .ended hc (.inr he) (by rw [heq, Function.update_self]) fun hx => by
        rw [he] at hx
        cases hx
    · exact .of_eq (by rw [heq, Function.update_of_ne hq])
  | committed c d sz _ _ heq =>
    by_cases hq : q = c
    · subst hq
      have hq' : v' q = { k.view q with pgdir := some d } := by rw [heq, Function.update_self]
      exact .stays (by rw [hq']) (by rw [hq']) (by rw [hq']) (by rw [hq']) (by rw [hq'])
        (by rw [hq'])
    · exact .of_eq (by rw [heq, Function.update_of_ne hq])
  | replaced c m he hc hm hfree hself hrest =>
    by_cases hq : Member k.view m q
    · by_cases hqc : q = c
      · subst hqc
        refine .replaced hc he hself fun m' q' hm' hq' hne => ?_
        cases Option.some.inj (hm'.2.symm.trans hm.2)
        rw [hfree q' hq' hne]
        rfl
      · exact .freed hq.1 (by rw [hfree q hq hqc]; rfl)
    · exact .of_eq (hrest q hq)
  | reaped c m p _ _ hz _ _ heq =>
    by_cases hq : q = p
    · subst hq; exact .freed (.inr hz) (by rw [heq, Function.update_self])
    · exact .of_eq (by rw [heq, Function.update_of_ne hq])
  | joined c m p _ _ _ hp _ _ _ _ heq =>
    by_cases hq : q = p
    · subst hq; exact .freed hp.1 (by rw [heq, Function.update_self]; rfl)
    · by_cases hqm : q = m
      · subst hqm
        have hq' : v' q = { k.view q with next := (k.view p).next } := by
          rw [heq, Function.update_of_ne hq, Function.update_self]
        exact .stays (by rw [hq']) (by rw [hq']) (by rw [hq']) (by rw [hq']) (by rw [hq'])
          (by rw [hq'])
      · exact .of_eq (by rw [heq, Function.update_of_ne hq, Function.update_of_ne hqm])

end Xv6.Thread
