import Xv6.Thread.Steps

namespace Xv6.Thread

open Xv6.Lib

/-!
# Threads — what `wait` frees

`wait` frees the page directory of the main thread of the zombie it reaps.  A thread has the
parent of its main thread, so that the parent may reap a thread that was never joined while
the rest of the process runs on; and after an `exit` that was not called by the main thread,
the slot of the main thread may already belong to somebody else.

* `wait_frees_own_space` — in every run of careful steps `wait` frees the directory of the
  process it reaps, which nobody else uses;
* `wait_frees_running_space` — a run in which it frees the directory of a running process.
-/

/-- The slot holds a process that runs, waits to run, or is being set up. -/
def InUse (k : Kernel) (q : Slot) : Prop :=
  (k.proc q).state = .EMBRYO ∨ (k.proc q).state = .SLEEPING ∨ (k.proc q).state = .RUNNABLE ∨
    (k.proc q).state = .RUNNING

/-- The directory that `wait` frees when it reaps `p` is the one that `p` was using, and no other
    slot in use refers to it. -/
def FreesOwnSpace (k : Kernel) (p : Slot) : Prop :=
  ∃ m d, (k.proc p).mainThread = some m ∧ (k.proc m).pgdir = some d ∧ (k.proc p).pgdir = some d ∧
    ∀ q, q ≠ p → InUse k q → (k.proc q).pgdir ≠ some d

variable {k k' : Kernel} {c p : Slot}

/-- A zombie that is the last thread of its process shares its directory with no slot in use,
    apart from directories left over in slots that are not finished. -/
theorem KernelInv.unshared (h : KernelInv True False k) {m : Slot} {d : Nat} (hm : Member k.view m p)
    (hd : (k.view p).pgdir = some d) (hlast : ∀ q, Member k.view m q → q = p) (hok : ReapOk k p) :
    ∀ q, q ≠ p → InUse k q → (k.proc q).pgdir ≠ some d := by
  intro q hq huse hdq
  have hown : Owns k.view k.call m d := .inl ⟨p, hm, .inl hd⟩
  rcases huse with hemb | hact
  · by_cases hfork : ∃ c, k.call c = .forkCopied q
    · -- the child of a `fork` owns its directory
      obtain ⟨c, hc⟩ := hfork
      have hlife : (k.view q).life = .embryo := by
        simp [Kernel.view, Proc.view, hemb, ProcState.life]
      have hmq : m = q := hown.unique h.inv trivial (.inr ⟨c, hc, hdq⟩)
      subst hmq
      exact h.inv.no_members (by rw [hlife]; simp) (.inr hlife) hm
    · refine hok.leftover q hemb (fun c hc => hfork ⟨c, hc⟩) ?_
      rw [hdq]
      exact hd.symm
  · have hlife : (k.view q).life = .active := by
      rcases hact with hs | hs | hs <;> simp [Kernel.view, Proc.view, hs, ProcState.life]
    obtain ⟨m', hm'⟩ := (h.inv.slots q).main (.inl hlife)
    have hmm : m = m' := hown.unique h.inv trivial (.inl ⟨q, ⟨.inl hlife, hm'⟩, .inl hdq⟩)
    subst hmm
    exact hq (hlast q ⟨.inl hlife, hm'⟩)

/-- In every run of careful steps `wait` frees the directory of the process it reaps. -/
theorem wait_frees_own_space (h : Reachable Init (Steps step Careful) k)
    (hw : Careful k .wait) (hs : step k .wait = .ok k') (hc : k.cpuProc = some c)
    (hp : zombieChild k c = some p) : FreesOwnSpace k p := by
  rw [step] at hs
  split at hs
  · cases hs
  · rename_i hlock
    have hinv : KernelInv True False k := .of_reachable (fun _ _ he => he.keepsGroups)
      (fun _ _ _ he => he) (fun hW => hW.elim) h (by simpa using hlock)
    obtain ⟨c', hc', hs⟩ := byProc_ok hs
    rw [hc] at hc'
    cases hc'
    split at hs
    · rw [wait, hp] at hs
      obtain ⟨m, d, hm, hmd, hd, hlast, _⟩ := hinv.reap_ok hp (hw c hc p hp).last hs
      exact ⟨m, d, hm, hmd, hd trivial, hinv.unshared ⟨.inr (zombieChild_spec hp), hm⟩ (hd trivial)
        hlast (hw c hc p hp)⟩
    · cases hs

/-- A process creates a thread, joins it and exits, and its parent reaps it. -/
theorem wait_frees_own_space_joined :
    ∃ k, zombieChild k 0 = some 1 ∧ FreesOwnSpace k 1 := by
  obtain ⟨k₀, h₀⟩ : ∃ k, userinit boot 7 = .ok k := ⟨_, rfl⟩
  have hstart : Reachable Init (Steps step Careful) k₀ := .start ⟨7, h₀⟩
  obtain ⟨k, hk, hp⟩ := reachable_of_reachTest step Careful
    (fun k => decide (Careful k .wait ∧ k.cpuProc = some 0 ∧ zombieChild k 0 = some 1) &&
      (step k .wait).isOk)
    ([.schedule, .forkAlloc true, .forkCopy (some 8), .forkRun, .wait, .schedule,
      .createAlloc true, .createFinish true, .threadJoin 1, .schedule] ++ threadExitSteps 5 ++
      [.schedule, .schedule, .joinCheck] ++ exitSteps ++ [.schedule, .schedule])
    hstart (by cases h₀; decide +kernel)
  rw [Bool.and_eq_true, decide_eq_true_eq] at hp
  obtain ⟨⟨hw, hc, hz⟩, hok⟩ := hp
  cases hs : step k .wait with
  | error e => rw [hs] at hok; cases hok
  | ok k' => exact ⟨k, hz, wait_frees_own_space hk hw hs hc hz⟩

/-- The parent of a process reaps a thread that has exited and was not joined, and frees the
    directory with which the main thread runs on. -/
theorem wait_frees_running_space :
    ∃ k k', Reachable Init (Steps step fun _ _ => True) k ∧ k.cpuProc = some 0 ∧
      zombieChild k 0 = some 2 ∧ step k .wait = .ok k' ∧ ¬ FreesOwnSpace k 2 := by
  obtain ⟨k₀, h₀⟩ : ∃ k, userinit boot 7 = .ok k := ⟨_, rfl⟩
  have hstart : Reachable Init (Steps step fun _ _ => True) k₀ := .start ⟨7, h₀⟩
  obtain ⟨k, hk, hp⟩ := reachable_of_reachTest step (fun _ _ => True)
    (fun k => decide (k.cpuProc = some 0 ∧ zombieChild k 0 = some 2 ∧
      (k.proc 2).pgdir = (k.proc 1).pgdir ∧ (k.proc 1).state = .RUNNABLE) && (step k .wait).isOk)
    ([.schedule, .forkAlloc true, .forkCopy (some 8), .forkRun, .yield, .schedule,
      .createAlloc true, .createFinish true, .yield, .schedule] ++ threadExitSteps 5 ++
      [.schedule, .schedule])
    hstart (by cases h₀; decide +kernel)
  rw [Bool.and_eq_true, decide_eq_true_eq] at hp
  obtain ⟨⟨hc, hz, hd, hr⟩, hok⟩ := hp
  cases hs : step k .wait with
  | error e => rw [hs] at hok; cases hok
  | ok k' =>
    refine ⟨k, k', hk, hc, hz, hs, ?_⟩
    rintro ⟨m, d, _, _, hd₂, hall⟩
    exact hall 1 (by decide) (.inr (.inr (.inl hr))) (by rw [← hd, hd₂])

end Xv6.Thread
