import Xv6.Thread.Slots

namespace Xv6.Thread

open Xv6.Lib

/-!
# Threads — which thread `kill` reaches

All threads of a process have the same pid, and `kill` stops at the first slot of the table that
has it, whatever the state of the slot is.

* `kill_of_first` — the effect of `kill` in terms of that slot;
* `kill_reaches` — when a thread that will run again is left with `killed` set.
-/

variable {k k' : Kernel} {c p : Slot} {pid : Int}

instance (st : ProcState) : Decidable st.active := inferInstanceAs (Decidable (_ ∨ _ ∨ _))

/-- A thread in this state returns to user space without being woken. -/
def ProcState.ready (st : ProcState) : Prop := st = .RUNNABLE ∨ st = .RUNNING

instance (st : ProcState) : Decidable st.ready := inferInstanceAs (Decidable (_ ∨ _))

/-- `p` is the first slot of the table with this pid. -/
def FirstOf (k : Kernel) (pid : Int) (p : Slot) : Prop :=
  (k.proc p).pid = pid ∧ ∀ i < p, (k.proc i).pid ≠ pid

/-- A thread of this pid will exit when it returns to user space. -/
def Doomed (k : Kernel) (pid : Int) (i : Slot) : Prop :=
  (k.proc i).pid = pid ∧ (k.proc i).state.ready ∧ (k.proc i).killed = true

/-- The call of `c` has returned 0, and a thread of this pid is doomed. -/
def KillReaches (k : Kernel) (c : Slot) (pid : Int) : Prop :=
  (k.proc c).eax = 0 ∧ k.call c = .user ∧ ∃ i, Doomed k pid i

theorem exists_first (h : ∃ i, (k.proc i).pid = pid) : ∃ p, FirstOf k pid p := by
  obtain ⟨p, hp, hmin⟩ := WellFounded.has_min wellFounded_lt {i | (k.proc i).pid = pid} h
  exact ⟨p, hp, fun i hi hpid => hmin i hpid hi⟩

theorem FirstOf.unique {q : Slot} (hp : FirstOf k pid p) (hq : FirstOf k pid q) : p = q := by
  rcases lt_trichotomy p q with hlt | heq | hlt
  · exact absurd hp.1 (hq.2 p hlt)
  · exact heq
  · exact absurd hq.1 (hp.2 q hlt)

/-- The loop of `kill` stops at the first slot with the pid. -/
theorem FirstOf.find (h : FirstOf k pid p) :
    ((List.finRange NPROC).find? fun i => (k.proc i).pid = pid) = some p := by
  refine List.find?_eq_some_iff_getElem.mpr ⟨by simpa using h.1, p.val, by simp, by simp, ?_⟩
  intro j hj
  have hlt : (⟨j, hj.trans p.isLt⟩ : Slot) < p := hj
  simpa using h.2 _ hlt

/-- What `kill` does to the slot that it finds. -/
def markKilled (q : Proc) : Proc :=
  { q with killed := true, state := if q.state = .SLEEPING then .RUNNABLE else q.state }

theorem kill_of_first (h : FirstOf k pid p) :
    kill k c pid = (k.setProc p markKilled).ret c 0 := by
  rw [kill, h.find]
  rfl

theorem ready_mark {q : Proc} : (markKilled q).state.ready ↔ q.state.active := by
  cases hs : q.state <;> simp [markKilled, ProcState.ready, ProcState.active, hs]

/-- Whether a thread is doomed does not depend on what a call has returned. -/
theorem doomed_ret {r : Int} {i : Slot} : Doomed (k.ret c r) pid i ↔ Doomed k pid i := by
  by_cases hi : i = c
  · subst hi
    simp [Doomed, Kernel.ret, Kernel.setProc, Kernel.setCall]
  · simp [Doomed, Kernel.ret, Kernel.setProc, Kernel.setCall, hi]

/-- `kill` dooms the slot that it finds if the thread in it is alive, and no other one. -/
theorem doomed_mark (h : FirstOf k pid p) {i : Slot} :
    Doomed (k.setProc p markKilled) pid i ↔
      i = p ∧ (k.proc p).state.active ∨ i ≠ p ∧ Doomed k pid i := by
  by_cases hi : i = p
  · subst hi
    have hpid : (markKilled (k.proc i)).pid = pid := h.1
    have hkilled : (markKilled (k.proc i)).killed = true := rfl
    simp [Doomed, Kernel.setProc, hpid, hkilled, ready_mark]
  · simp [Doomed, Kernel.setProc, hi]

/-- For a pid with a thread that is alive, `kill` returns 0, and it leaves a doomed thread if and
    only if the first slot of the pid holds a thread that is alive or a thread was doomed before. -/
theorem kill_reaches (hfree : k.ptableLocked = false) (hc : k.cpuProc = some c)
    (huser : k.call c = .user) (hlive : ∃ i, (k.proc i).pid = pid ∧ (k.proc i).state.active) :
    ∃ k', step k (.kill pid) = .ok k' ∧ (k'.proc c).eax = 0 ∧ k'.call c = .user ∧
      (KillReaches k' c pid ↔
        (∃ p, FirstOf k pid p ∧ (k.proc p).state.active) ∨ ∃ i, Doomed k pid i) := by
  obtain ⟨i, hi, -⟩ := hlive
  obtain ⟨p, hp⟩ := exists_first ⟨i, hi⟩
  have hstep : step k (.kill pid) = .ok ((k.setProc p markKilled).ret c 0) := by
    simp [step, stepFree, byUser, byProc, hfree, hc, huser, kill_of_first hp]
  have heax : (((k.setProc p markKilled).ret c 0).proc c).eax = 0 := by
    simp [Kernel.ret, Kernel.setCall, Kernel.setProc]
  have hcall : ((k.setProc p markKilled).ret c 0).call c = .user := by
    simp [Kernel.ret, Kernel.setCall, Kernel.setProc]
  refine ⟨_, hstep, heax, hcall, ?_⟩
  unfold KillReaches
  simp only [heax, hcall, true_and, doomed_ret, doomed_mark hp]
  constructor
  · rintro ⟨j, ⟨rfl, ha⟩ | ⟨-, hd⟩⟩
    · exact .inl ⟨j, hp, ha⟩
    · exact .inr ⟨j, hd⟩
  · rintro (⟨q, hq, ha⟩ | ⟨j, hd⟩)
    · cases hp.unique hq
      exact ⟨p, .inl ⟨rfl, ha⟩⟩
    · by_cases hj : j = p
      · -- The first slot is itself doomed, so its thread is alive.
        subst hj
        exact ⟨j, .inl ⟨rfl, .inr hd.2.1⟩⟩
      · exact ⟨j, .inr ⟨hj, hd⟩⟩

/-- The steps up to the point where the process with the pid 3 has created a thread in a slot
    before its own, which an earlier process has left. -/
def reusedSlot : List Step :=
  [.schedule, .forkAlloc true, .forkCopy (some 8), .forkRun, .forkAlloc true, .forkCopy (some 9),
    .forkRun, .wait, .schedule] ++ exitSteps ++
  [.schedule, .yield, .schedule, .schedule, .wait, .yield, .schedule, .createAlloc true,
    .createFinish true]

/-- The first slot of the pid holds a thread that is alive. -/
theorem kill_reaches_first : ∃ k k' : Kernel, Reachable Init (Steps step fun _ _ => True) k ∧
    step k (.kill 3) = .ok k' ∧ KillReaches k' 2 3 := by
  obtain ⟨k₀, h₀⟩ : ∃ k, userinit boot 7 = .ok k := ⟨_, rfl⟩
  have hstart : Reachable Init (Steps step fun _ _ => True) k₀ := .start ⟨7, h₀⟩
  obtain ⟨k, hk, hp⟩ := exec_of_execTest step k₀ reusedSlot (fun k =>
    decide (k.ptableLocked = false ∧ k.cpuProc = some 2 ∧ k.call 2 = .user ∧
      (k.proc 1).pid = 3 ∧ (k.proc 1).state.active ∧ (k.proc 0).pid ≠ 3))
    (by cases h₀; decide +kernel)
  obtain ⟨hfree, hc, hu, hpid, hstate, h0⟩ := of_decide_eq_true hp
  obtain ⟨k', hk', -, -, hiff⟩ := kill_reaches hfree hc hu ⟨1, hpid, hstate⟩
  have hfirst : FirstOf k 3 1 := by
    refine ⟨hpid, fun i hi => ?_⟩
    obtain rfl : i = 0 := Fin.ext (Nat.lt_one_iff.mp hi)
    exact h0
  exact ⟨k, k', reachable_exec hstart (fun _ _ _ => trivial) hk, hk',
    hiff.mpr (.inl ⟨1, hfirst, hstate⟩)⟩

/-- The thread in the first slot of the pid has exited and waits to be joined: `kill` marks it and
    leaves the threads that are alive alone. -/
theorem kill_misses : ∃ k k' : Kernel, Reachable Init (Steps step fun _ _ => True) k ∧
    step k (.kill 3) = .ok k' ∧ (k.proc 2).pid = 3 ∧ (k.proc 2).state = .RUNNING ∧
    k.cpuProc = some 2 ∧ ¬ KillReaches k' 2 3 := by
  obtain ⟨k₀, h₀⟩ : ∃ k, userinit boot 7 = .ok k := ⟨_, rfl⟩
  obtain ⟨k, hk, hp⟩ := exec_of_execTest step k₀
    (reusedSlot ++ [.yield, .schedule, .schedule, .yield, .schedule] ++ threadExitSteps 5 ++
      [.schedule]) (fun k =>
    decide ((k.proc 2).pid = 3 ∧ (k.proc 2).state = .RUNNING ∧ k.cpuProc = some 2) &&
    execTest step k [.kill 3] fun k' => decide (¬ ∃ i, (k'.proc i).pid = 3 ∧ (k'.proc i).state.ready ∧
      (k'.proc i).killed = true))
    (by cases h₀; decide +kernel)
  rw [Bool.and_eq_true] at hp
  obtain ⟨hpid, hstate, hcpu⟩ := of_decide_eq_true hp.1
  obtain ⟨k', hk', hnone⟩ := step_of_execTest hp.2
  exact ⟨k, k', reachable_exec (.start ⟨7, h₀⟩) (fun _ _ _ => trivial) hk, hk', hpid, hstate,
    hcpu, fun h => of_decide_eq_true hnone h.2.2⟩

end Xv6.Thread
