import Xv6.Thread.Assign

namespace Xv6.Thread

open Xv6.Lib

/-!
# Threads — the slots that a step takes and releases

What holds of the slots in every run, whatever the lists of threads look like, as long as `exit`
and `exec` release only threads that have been started:

* `released_onList` — `exit` and `exec` release only threads on the list of the process;
* `SlotsOk` — a slot that `fork` or `thread_create` has taken stays theirs until it is started, and
  the running process is active.
-/

/-- The threads on the list of the process of `c`, in the order of the list. -/
def threadAt (k : Kernel) (c : Slot) : Nat → Option Slot
  | 0 => (k.proc c).mainThread
  | n + 1 => (threadAt k c n).bind k.next

variable {k k' k₁ : Kernel} {c np p : Slot} {e : Step}

/-- The process runs, waits for the CPU, or sleeps. -/
def ProcState.active (st : ProcState) : Prop := st = .SLEEPING ∨ st = .RUNNABLE ∨ st = .RUNNING

/-- What is known about the machine in every run: the slots that calls have allocated are theirs,
    and the running process is active. -/
structure SlotsOk (k : Kernel) : Prop where
  embryo : ∀ c np, (k.call c).newSlot = some np → (k.proc np).state = .EMBRYO
  unique : ∀ c c' np, (k.call c).newSlot = some np → (k.call c').newSlot = some np → c = c'
  cpu : ∀ c, k.cpuProc = some c → (k.proc c).state.active

/-- The other threads on the list of the process have been started. -/
def ListStarted (k : Kernel) (e : Step) : Prop :=
  (e = .exit ∨ e = .execFinish) → ∀ c ∈ k.cpuProc, ∀ n : Fin (2 * NPROC), ∀ p ∈ threadAt k c n,
    p ≠ c → (k.proc p).state ≠ .EMBRYO

/-- The loop that releases threads finds them on the list. -/
theorem freeThreads_onList {cond : Kernel → Slot → Bool} {n i : Nat} {o : Option Slot}
    (hcond : ∀ k, cond k c = false) (hi : i + n = 2 * NPROC)
    (ho : o = none ∨ o = threadAt k c i)
    (hnext : ∀ q, k₁.next q = k.next q ∨ k₁.next q = none)
    (hs : freeThreads cond n k₁ o = .ok k') (hp : (k'.proc p).state = .UNUSED)
    (hp₁ : (k₁.proc p).state ≠ .UNUSED) :
    p ≠ c ∧ ∃ j : Fin (2 * NPROC), threadAt k c j = some p := by
  induction n generalizing k₁ i o with
  | zero =>
    cases o with
    | none => cases hs; exact absurd hp hp₁
    | some q => cases hs
  | succ n ih =>
    cases o with
    | none => cases hs; exact absurd hp hp₁
    | some q =>
      rw [freeThreads] at hs
      have hq : threadAt k c i = some q := by
        rcases ho with ho | ho
        · cases ho
        · exact ho.symm
      -- the next thread on the list, or the end
      have hrest : (k₁.proc q).nextThread = none ∨
          (k₁.proc q).nextThread = threadAt k c (i + 1) := by
        rw [threadAt, hq]
        rcases hnext q with h | h
        · exact .inr h
        · exact .inl h
      by_cases hfree : cond k₁ q = true
      · rw [if_pos hfree] at hs
        by_cases hqp : p = q
        · subst hqp
          refine ⟨fun hpc => ?_, ⟨i, by omega⟩, hq⟩
          rw [hpc, hcond] at hfree
          cases hfree
        · refine ih (i := i + 1) (by omega) hrest (fun r => ?_) hs ?_
          · rw [Kernel.next, freeThread, proc_setWalk, proc_setCall]
            by_cases hrq : r = q
            · subst hrq; rw [setProc_self]; exact .inr rfl
            · rw [setProc_other hrq]; exact hnext r
          · rw [freeThread, proc_setWalk, proc_setCall, setProc_other hqp]
            exact hp₁
      · rw [if_neg hfree] at hs
        exact ih (by omega) hrest hnext hs hp₁

theorem used_wakeup1 (chan : Option Chan) (h : (k.proc p).state ≠ .UNUSED) :
    ((wakeup1 k chan).proc p).state ≠ .UNUSED := by
  show (wakeOne chan (k.proc p)).state ≠ _
  rw [wakeOne]
  split
  · simp
  · exact h

theorem used_reparent (h : (k.proc p).state ≠ .UNUSED) :
    ((reparent k c).proc p).state ≠ .UNUSED := by
  have hfirst : (if (k.proc p).parent = some c then { k.proc p with parent := k.initproc }
      else k.proc p).state ≠ .UNUSED := by
    split <;> exact h
  rw [reparent]
  split
  · exact used_wakeup1 _ hfirst
  · exact hfirst

/-- A slot that `exit` and `exec` release is released by their loop over the list. -/
theorem released_by (hs : step k e = .ok k') (he : e = .exit ∨ e = .execFinish)
    (hp' : (k'.proc p).state = .UNUSED) : ∃ c k₁ cond, k.cpuProc = some c ∧
      (∀ k, cond k c = false) ∧
      freeThreads cond (2 * NPROC) k (k.proc c).mainThread = .ok k₁ ∧
      (k₁.proc p).state = .UNUSED ∧ k'.call = Function.update k₁.call c .user := by
  rw [step] at hs
  split at hs
  · cases hs
  rcases he with rfl | rfl
  · obtain ⟨c, hc, hs⟩ := byProc_ok hs
    split at hs
    · obtain ⟨k₁, hk₁, hs⟩ := bind_eq_ok.mp hs
      cases hs
      have hcp : p ≠ c := fun hpc => by
        subst hpc
        rw [zombie, proc_setWalk, proc_setCall, setProc_self] at hp'
        cases hp'
      refine ⟨c, k₁, _, hc, fun k => by simp [otherThread], hk₁, ?_, ?_⟩
      · -- waking and passing on children releases nobody
        rw [zombie_other hcp] at hp'
        by_contra hne
        have hleft : ((reparent (wakeup1 k₁ ((k₁.proc c).parent.map .proc)) c).proc p).state ≠
            .UNUSED := used_reparent (used_wakeup1 _ hne)
        exact hleft hp'
      · show Function.update (reparent (wakeup1 k₁ _) c).call c .user = _
        rw [call_reparent]
        rfl
    · cases hs
  · obtain ⟨c, hc, hs⟩ := byProc_ok hs
    split at hs
    · split at hs
      · obtain ⟨k₂, hk₂, hs⟩ := bind_eq_ok.mp hs
        obtain ⟨k₁, hk₁, hk₂⟩ := bind_eq_ok.mp hk₂
        cases hk₂
        obtain ⟨d, _, rfl⟩ := freevm_ok hs
        refine ⟨c, k₁, _, hc, fun k => by simp, hk₁, ?_, rfl⟩
        simp only [proc_setWalk] at hp'
        by_cases hpc : p = c
        · subst hpc
          rw [Kernel.ret, proc_setCall, setProc_self, setProc_self] at hp'
          exact hp'
        · rw [ret_other hpc, setProc_other hpc] at hp'
          exact hp'
      · cases hs
    · cases hs

/-- `exit` and `exec` release only other threads on the list. -/
theorem released_onList (hs : step k e = .ok k') (he : e = .exit ∨ e = .execFinish)
    (hp : (k.proc p).state ≠ .UNUSED) (hp' : (k'.proc p).state = .UNUSED) :
    ∃ c, k.cpuProc = some c ∧ p ≠ c ∧ ∃ j : Fin (2 * NPROC), threadAt k c j = some p := by
  obtain ⟨c, k₁, cond, hc, hcond, hk₁, hp₁, _⟩ := released_by hs he hp'
  exact ⟨c, hc, freeThreads_onList hcond (Nat.zero_add _) (.inr rfl) (fun _ => .inl rfl) hk₁ hp₁ hp⟩

/-- The loop that releases threads takes them out of their calls. -/
theorem freeThreads_call {cond : Kernel → Slot → Bool} {n : Nat} {o : Option Slot}
    (hs : freeThreads cond n k₁ o = .ok k')
    (hp : k₁.call p = .user ∨ ((k'.proc p).state = .UNUSED ∧ (k₁.proc p).state ≠ .UNUSED)) :
    k'.call p = .user := by
  induction n generalizing k₁ o with
  | zero =>
    cases o with
    | none => cases hs; exact hp.elim id fun h => absurd h.1 h.2
    | some q => cases hs
  | succ n ih =>
    cases o with
    | none => cases hs; exact hp.elim id fun h => absurd h.1 h.2
    | some q =>
      rw [freeThreads] at hs
      split at hs
      · refine ih hs ?_
        by_cases hpq : p = q
        · subst hpq
          exact .inl (Function.update_self ..)
        · rw [call_freeThread, Function.update_of_ne hpq, freeThread, proc_setWalk, proc_setCall,
            setProc_other hpq]
          exact hp
      · exact ih hs hp

theorem released_call (hs : step k e = .ok k') (he : e = .exit ∨ e = .execFinish)
    (hp : (k.proc p).state ≠ .UNUSED) (hp' : (k'.proc p).state = .UNUSED) :
    k'.call p = .user := by
  obtain ⟨c, k₁, cond, _, _, hk₁, hp₁, hcall⟩ := released_by hs he hp'
  rw [hcall]
  by_cases hpc : p = c
  · subst hpc
    exact Function.update_self ..
  · rw [Function.update_of_ne hpc]
    exact freeThreads_call hk₁ (.inr ⟨hp₁, hp⟩)

theorem zombieChild_state (hp : zombieChild k c = some p) : (k.proc p).state = .ZOMBIE := by
  have hz := List.find?_some hp
  exact (of_decide_eq_true hz).2

/-- An active process stays active, ends with the step, or is released by `exit` or `exec`. -/
theorem SlotsOk.active_step (h : SlotsOk k) (hs : step k e = .ok k')
    (hp : (k.proc p).state.active) : (k'.proc p).state.active ∨
      (e.ends = true ∧ k.cpuProc = some p) ∨
      ((k'.proc p).state = .UNUSED ∧ (e = .exit ∨ e = .execFinish) ∧ k.cpuProc ≠ some p) := by
  have hnew : ∀ c, (k.call c).newSlot ≠ some p := fun c hc => by
    rw [h.embryo c p hc] at hp
    simp [ProcState.active] at hp
  have hne : (k.proc p).state ≠ .UNUSED ∧ (k.proc p).state ≠ .ZOMBIE := by
    rcases hp with hp | hp | hp <;> simp [hp]
  have hassigned := step_assigned hs p
  show (k'.core p).state.active ∨ _ ∨ ((k'.core p).state = .UNUSED ∧ _)
  rw [Assigned] at hassigned
  generalize k'.core p = z at hassigned
  induction hassigned with
  | refl => exact .inl hp
  | tail _ hassign ih =>
    cases hassign with
    | wake y hy => exact .inl (.inr (.inl rfl))
    | alloc _ _ hf => exact absurd (firstUnused_state hf) hne.1
    | abort _ _ hf => exact absurd (firstUnused_state hf) hne.1
    | drop _ c _ hc _ => exact absurd hc (hnew c)
    | copy _ _ _ _ _ => exact ih
    | start _ _ _ _ _ => exact .inl (.inr (.inl rfl))
    | attach _ _ _ _ _ _ => exact ih
    | link _ _ _ _ _ _ _ => exact .inl (.inr (.inl rfl))
    | free _ hfree =>
      rcases hfree with ⟨he, hc⟩ | ⟨_, hz⟩
      · exact .inr (.inr ⟨rfl, he, hc⟩)
      · exact absurd hz hne.2
    | reap _ _ _ _ hz => exact absurd (zombieChild_state hz) hne.2
    | passOn _ _ _ _ _ => exact ih
    | die _ _ hc he =>
      refine .inr (.inl ⟨?_, hc⟩)
      rcases he with ⟨rfl, _⟩ | ⟨rfl, _⟩ <;> rfl
    | replace _ _ _ => exact ih
    | rest st _ hst =>
      rcases hst with rfl | rfl
      · exact .inl (.inl rfl)
      · exact .inl (.inr (.inl rfl))
    | run _ _ _ => exact .inl (.inr (.inr rfl))

/-- A slot that a call has allocated stays new until the call ends. -/
theorem SlotsOk.embryo_step (h : SlotsOk k) (hl : ListStarted k e) (hs : step k e = .ok k')
    (hnew : (k.call c).newSlot = some np) :
    (k'.proc np).state = .EMBRYO ∨ (e.creates = true ∧ k.cpuProc = some c) := by
  have hemb := h.embryo c np hnew
  have hcpu : k.cpuProc ≠ some np := fun hc => by
    have hact := h.cpu np hc
    rw [hemb] at hact
    simp [ProcState.active] at hact
  have hown : ∀ c', (k.call c').newSlot = some np → c' = c := fun c' hc' =>
    h.unique c' c np hc' hnew
  have hassigned := step_assigned hs np
  -- the slot may also have been released, which is impossible
  have hleft : (k'.proc np).state = .EMBRYO ∨
      ((k'.proc np).state = .UNUSED ∧ (e = .exit ∨ e = .execFinish)) ∨
      (e.creates = true ∧ k.cpuProc = some c) := by
    show (k'.core np).state = .EMBRYO ∨ ((k'.core np).state = .UNUSED ∧ _) ∨ _
    rw [Assigned] at hassigned
    generalize k'.core np = z at hassigned
    induction hassigned with
    | refl => exact .inl hemb
    | tail _ hassign ih =>
      cases hassign with
      | wake y hy =>
        rcases ih with hi | ⟨hi, _⟩ | hi
        · rw [hi] at hy; cases hy
        · rw [hi] at hy; cases hy
        · exact .inr (.inr hi)
      | alloc _ _ hf => exact .inl rfl
      | abort _ _ hf => exact absurd ((firstUnused_state hf).symm.trans hemb) (by simp)
      | drop _ c' hc' hnew' he => exact .inr (.inr ⟨he.1, hown c' hnew' ▸ hc'⟩)
      | copy _ _ _ _ _ => exact ih
      | start _ c' hc' hcall he =>
        exact .inr (.inr ⟨by rw [he]; rfl, hown c' (by rw [hcall]; rfl) ▸ hc'⟩)
      | attach _ _ _ _ _ _ => exact ih
      | link _ c' m hc' hcall he _ =>
        obtain ⟨ok, rfl⟩ := he
        exact .inr (.inr ⟨rfl, hown c' (by rw [hcall]; rfl) ▸ hc'⟩)
      | free _ hfree =>
        rcases hfree with ⟨he, _⟩ | ⟨_, hz⟩
        · exact .inr (.inl ⟨rfl, he⟩)
        · rw [hemb] at hz; cases hz
      | reap _ _ _ _ hz => rw [zombieChild_state hz] at hemb; cases hemb
      | passOn _ _ _ _ _ => exact ih
      | die _ _ hc _ => exact absurd hc hcpu
      | replace _ _ _ => exact ih
      | rest _ hc _ => exact absurd hc hcpu
      | run y _ hy =>
        rcases ih with hi | ⟨hi, _⟩ | hi
        · rw [hi] at hy; cases hy
        · rw [hi] at hy; cases hy
        · exact .inr (.inr hi)
  rcases hleft with hleft | ⟨hu, he⟩ | hleft
  · exact .inl hleft
  · obtain ⟨c', hc', hne, j, hj⟩ := released_onList hs he (by simp [hemb]) hu
    exact absurd hemb (hl he c' hc' j np hj hne)
  · exact .inr hleft

/-- The call of the running process is over with the last step of `fork` and `thread_create`. -/
theorem creates_returns (hs : step k e = .ok k') (he : e.creates = true)
    (hc : k.cpuProc = some c) : k'.call c = .user := by
  rw [step] at hs
  split at hs
  · cases hs
  cases e with
  | forkCopy dir =>
    cases dir with
    | some d => cases he
    | none =>
      obtain ⟨c', hc', hs⟩ := byProc_ok hs
      cases hc.symm.trans hc'
      split at hs
      · cases hs; exact Function.update_self ..
      · cases hs
  | forkRun =>
    obtain ⟨c', hc', hs⟩ := byProc_ok hs
    cases hc.symm.trans hc'
    split at hs
    · cases hs; exact Function.update_self ..
    · cases hs
  | createFinish ok =>
    obtain ⟨c', hc', hs⟩ := byProc_ok hs
    cases hc.symm.trans hc'
    split at hs
    · rename_i m np _
      rw [createFinish] at hs
      split at hs
      · cases hs; exact Function.update_self ..
      · split at hs
        · cases hs; exact Function.update_self ..
        · rw [call_linkThread hs]; exact Function.update_self ..
    · cases hs
  | _ => cases he

/-- The slot that `allocproc` returns is new. -/
theorem allocproc_embryo {next : Slot → Call} {ok : Bool}
    (hnext : ∀ p, (next p).newSlot = some p)
    (hnew : ((allocproc k c next ok).call c).newSlot = some np) :
    ((allocproc k c next ok).proc np).state = .EMBRYO := by
  have hself : ∀ {k₁ : Kernel} {x : Call}, ((k₁.setCall c x).call c) = x :=
    Function.update_self ..
  cases hf : firstUnused k with
  | none =>
    have heq : allocproc k c next ok = k.ret c (-1) := by rw [allocproc, hf]
    rw [heq, Kernel.ret, hself] at hnew
    cases hnew
  | some p =>
    cases ok with
    | false =>
      have heq : allocproc k c next false = ((initSlot k p).setProc p fun q =>
          { q with kstack := false, state := .UNUSED }).ret c (-1) := by rw [allocproc, hf]; rfl
      rw [heq, Kernel.ret, hself] at hnew
      cases hnew
    | true =>
      have heq : allocproc k c next true = ((initSlot k p).setProc p fun q =>
          { q with kstack := true }).setCall c (next p) := by rw [allocproc, hf]; rfl
      rw [heq, hself, hnext] at hnew
      cases hnew
      rw [heq, proc_setCall, setProc_self, initSlot, setProc_self]

theorem allocates_embryo (hs : step k e = .ok k') (he : e.allocates = true)
    (hc : k.cpuProc = some c) (hnew : (k'.call c).newSlot = some np) :
    (k'.proc np).state = .EMBRYO := by
  rw [step] at hs
  split at hs
  · cases hs
  cases e with
  | forkAlloc ok =>
    obtain ⟨c', hc', _, hs⟩ := byUser_ok hs
    cases hc.symm.trans hc'
    cases hs
    exact allocproc_embryo (fun _ => rfl) hnew
  | createAlloc ok =>
    obtain ⟨c', hc', _, hs⟩ := byUser_ok hs
    cases hc.symm.trans hc'
    obtain ⟨m, _, hs⟩ := bind_eq_ok.mp hs
    cases hs
    exact allocproc_embryo (fun _ => rfl) hnew
  | _ => cases he

/-- How a process comes to have a new slot: it had it before, or has taken it with the step. -/
theorem newSlot_step (hs : step k e = .ok k') (hnew : (k'.call c).newSlot = some np) :
    (k.call c).newSlot = some np ∨
      (e.allocates = true ∧ k.cpuProc = some c ∧ firstUnused k = some np) := by
  rcases step_call hs c with (hsame | ⟨huser, _⟩) | ⟨hc, huser | henter⟩
  · rw [hsame] at hnew; exact .inl hnew
  · rw [huser] at hnew; cases hnew
  · rw [huser] at hnew; cases hnew
  · generalize k'.call c = x at hnew henter
    cases henter with
    | fork _ np' hnp => cases hnew; exact .inr ⟨rfl, hc, hnp⟩
    | forkCopied _ np' hcall => cases hnew; rw [hcall]; exact .inl rfl
    | create _ m np' _ hnp => cases hnew; exact .inr ⟨rfl, hc, hnp⟩
    | _ => cases hnew

/-- One step. -/
theorem SlotsOk.step (h : SlotsOk k) (hl : ListStarted k e) (hs : Thread.step k e = .ok k') :
    SlotsOk k' where
  embryo c np hnew := by
    rcases newSlot_step hs hnew with hold | ⟨he, hc, _⟩
    · rcases h.embryo_step hl hs hold with hemb | ⟨he, hc⟩
      · exact hemb
      · rw [creates_returns hs he hc] at hnew; cases hnew
    · exact allocates_embryo hs he hc hnew
  unique c c' np hnew hnew' := by
    rcases newSlot_step hs hnew with hold | ⟨_, hc, hfirst⟩ <;>
      rcases newSlot_step hs hnew' with hold' | ⟨_, hc', hfirst'⟩
    · exact h.unique c c' np hold hold'
    · exact absurd ((h.embryo c np hold).symm.trans (firstUnused_state hfirst')) (by simp)
    · exact absurd ((h.embryo c' np hold').symm.trans (firstUnused_state hfirst)) (by simp)
    · exact Option.some.inj (hc.symm.trans hc')
  cpu c hc := by
    rcases (step_cpu hs).2 with ⟨hsame, hends⟩ | hnone | ⟨_, t, ht, hrun⟩
    · rw [hsame] at hc
      rcases h.active_step hs (h.cpu c hc) with hact | ⟨he, _⟩ | ⟨_, _, hne⟩
      · exact hact
      · rw [hends] at he; cases he
      · exact absurd hc hne
    · rw [hnone] at hc; cases hc
    · cases hc.symm.trans ht
      exact .inr (.inr hrun)

/-- When the scheduler starts, nobody is inside a call. -/
theorem SlotsOk.init (h : Init k) : SlotsOk k := by
  obtain ⟨_, _, hcall, _, _, _, hcpu, _⟩ := init_eq h
  exact {
    embryo := fun c np hnew => by rw [hcall] at hnew; cases hnew
    unique := fun c c' np hnew => by rw [hcall] at hnew; cases hnew
    cpu := fun c hc => by rw [hcpu] at hc; cases hc }

end Xv6.Thread
