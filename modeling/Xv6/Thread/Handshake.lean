import Xv6.Thread.Assign
import Xv6.Thread.Join

namespace Xv6.Thread

open Xv6.Lib

/-!
# Threads — the handshake of `thread_exit` and `thread_join`

A run of the machine seen from one thread in the slot `p` that the process in the slot `c` has
created.  The thread may call `thread_exit` and `c` may call `thread_join` at any time, and
everybody else may make any step that leaves the slot of the thread in use.  Nothing is assumed
about the list of threads, nor about how the run has begun.

* `HandshakeInv` — what holds in every state of such a run;
* `join_handshake` — no wakeup and no value is lost.
-/

/-- The machine, the value that the thread has passed to `thread_exit`, and the one with which it
    has executed `thread_exit`. -/
structure Handshake where
  kernel : Kernel
  passed : Option Nat
  exited : Option Nat

/-- The value that the thread in the slot `p` has passed to `thread_exit`. -/
def notePass (p : Slot) (s : Handshake) : Step → Option Nat
  | .threadExitBegin r => if s.kernel.cpuProc = some p then some r else s.passed
  | _ => s.passed

/-- The value with which the thread in the slot `p` has executed `thread_exit`. -/
def noteExit (p : Slot) (s : Handshake) : Step → Option Nat
  | .threadExit => if s.kernel.cpuProc = some p then s.passed else s.exited
  | _ => s.exited

/-- One step of the machine, with what the thread in the slot `p` does. -/
def handshakeStep (p : Slot) (s : Handshake) (e : Step) : Except Stop Handshake := do
  let k' ← step s.kernel e
  .ok ⟨k', notePass p s e, noteExit p s e⟩

/-- The slot `p` is in use by a thread that `c` has created and that has not called `thread_exit`
    yet, and `c` is not inside `thread_join` for it.  No other `fork` or `thread_create` is still
    at work on the slot. -/
structure HandshakeInit (c p : Slot) (s : Handshake) : Prop where
  used : (s.kernel.proc p).state ≠ .UNUSED
  alive : (s.kernel.proc p).state ≠ .ZOMBIE
  creator : (s.kernel.proc p).joinThread = some c
  owned : ∀ q, (s.kernel.call q).newSlot ≠ some p
  before : ∀ r, s.kernel.call p ≠ .threadExit r
  outside : ∀ m, s.kernel.call c ≠ .join m p

/-- The step releases the slot `p`. -/
def releases (k : Kernel) (e : Step) (p : Slot) : Bool :=
  match step k e with
  | .ok k' => (k'.proc p).state = .UNUSED
  | .error _ => false

/-- The thread in the slot `p` is still there and does not end with `exit()`, and only a
    `thread_join` of `c` releases its slot. -/
def Undisturbed (c p : Slot) (s : Handshake) (e : Step) : Prop :=
  (s.kernel.proc p).state ≠ .UNUSED ∧ ¬ (e = .exit ∧ s.kernel.cpuProc = some p) ∧
    (releases s.kernel e p = true → e.joins = true ∧ s.kernel.cpuProc = some c)

instance (c p : Slot) (s : Handshake) (e : Step) : Decidable (Undisturbed c p s e) :=
  inferInstanceAs (Decidable (_ ∧ _ ∧ (_ → _)))

/-- The thread that a step of `c` inside `thread_join` is about: the one that the call finds by its
    number, or has found before. -/
def joinTarget (k : Kernel) (c : Slot) : Step → Option Slot
  | .threadJoin tid => do
    let m ← (k.proc c).mainThread
    (walkFind k.next (fun p => (k.proc p).tid = tid ∧ (k.proc p).joinThread = some c) NPROC
      (k.proc m).nextThread).join
  | .joinCheck =>
    match k.call c with
    | .join _ p => some p
    | _ => none
  | _ => none

variable {k k' : Kernel} {s : Handshake} {c m p q : Slot} {e : Step}

/-! ### The slot of the thread -/

/-- What a step leaves in the slot of a thread from the fields `x`: a slot that is not in use, or
    the same creator, and the same return value for a zombie, if the thread did not exit. -/
def Undisturbed.Leaves (k : Kernel) (e : Step) (p : Slot) (x y : Core) : Prop :=
  (y.state = .UNUSED ∧ e ≠ .threadExit) ∨ (y.joinThread = x.joinThread ∧
    (y.state = .ZOMBIE → (x.state = .ZOMBIE ∧ y.retval = x.retval) ∨
      (e = .threadExit ∧ k.cpuProc = some p)))

theorem slot_leaves (hs : step k e = .ok k') (hp : (k.proc p).state ≠ .UNUSED)
    (howned : ∀ q, (k.call q).newSlot ≠ some p) (he : ¬ (e = .exit ∧ k.cpuProc = some p)) :
    Undisturbed.Leaves k e p (k.core p) (k'.core p) := by
  have hfirst : firstUnused k ≠ some p := fun hf => hp (firstUnused_state hf)
  have hcall : ∀ {c : Slot} {x : Call}, x.newSlot = some p → k.call c ≠ x := fun {c _} hx hc =>
    howned c (by rw [hc]; exact hx)
  have hassigned := step_assigned hs p
  rw [Assigned] at hassigned
  generalize k'.core p = z at hassigned
  -- one case for every assignment; `y` are the fields before it
  induction hassigned with
  | refl => exact .inr ⟨rfl, fun hz => .inl ⟨hz, rfl⟩⟩
  | tail _ hassign ih =>
    cases hassign with
    | wake y hy =>
      rcases ih with ⟨hu, _⟩ | ⟨hj, _⟩
      · rw [hu] at hy; cases hy
      · exact .inr ⟨hj, fun hz => by cases hz⟩
    | alloc _ _ hf => exact absurd hf hfirst
    | abort _ _ hf => exact absurd hf hfirst
    | drop _ c _ hnew _ => exact absurd hnew (howned c)
    | copy _ c _ hc _ => exact absurd hc (hcall rfl)
    | start _ c _ hc _ => exact absurd hc (hcall rfl)
    | attach _ c m _ hc _ => exact absurd hc (hcall rfl)
    | link _ c m _ hc _ _ => exact absurd hc (hcall rfl)
    | free _ hfree =>
      refine .inl ⟨rfl, fun hexit => ?_⟩
      rcases hfree with ⟨rfl | rfl, _⟩ | ⟨hj, _⟩
      · cases hexit
      · cases hexit
      · rw [hexit] at hj; cases hj
    | reap _ _ hwait => exact .inl ⟨rfl, fun hexit => by rw [hexit] at hwait; cases hwait⟩
    | passOn _ _ _ _ _ => exact ih
    | die y r hc hexit =>
      rcases hexit with ⟨rfl, _⟩ | ⟨hexit, _⟩
      · exact absurd ⟨rfl, hc⟩ he
      · rcases ih with ⟨_, hne⟩ | ⟨hj, _⟩
        · exact absurd hexit hne
        · exact .inr ⟨hj, fun _ => .inr ⟨hexit, hc⟩⟩
    | replace _ _ _ => exact ih
    | rest st _ hst =>
      refine .inr ⟨rfl, fun hz => ?_⟩
      have hz' : st = .ZOMBIE := hz
      rcases hst with rfl | rfl <;> cases hz'
    | run y _ hy =>
      rcases ih with ⟨hu, _⟩ | ⟨hj, _⟩
      · rw [hu] at hy; cases hy
      · exact .inr ⟨hj, fun hz => by cases hz⟩

/-! ### The return of `thread_join` -/

theorem joinVal_moveCurrent {prev : Slot} (hs : moveCurrent k p prev = .ok k') :
    (k'.proc q).joinVal = (k.proc q).joinVal := by
  obtain ⟨m, _, hs⟩ := bind_eq_ok.mp hs
  split at hs
  · cases hs
    by_cases hq : q = m
    · subst hq; rw [setProc_self]
    · rw [setProc_other hq]
  · cases hs; rfl

theorem joinVal_setNext (o : Option Slot) :
    ((k.setProc p fun x => { x with nextThread := o }).proc q).joinVal = (k.proc q).joinVal := by
  by_cases hq : q = p
  · subst hq; rw [setProc_self]
  · rw [setProc_other hq]

theorem joinVal_unlinkLoop {n : Nat} {prev prev' : Slot}
    (hs : unlinkLoop p n k prev = .ok (k', prev')) :
    (k'.proc q).joinVal = (k.proc q).joinVal := by
  induction n generalizing k prev with
  | zero => cases hs
  | succ n ih =>
    rw [unlinkLoop] at hs
    split at hs
    · cases hs; rfl
    · obtain ⟨x, _, hs⟩ := bind_eq_ok.mp hs
      rw [ih hs, joinVal_setNext]

theorem joinVal_unlinkThread (hs : unlinkThread k m p = .ok k') :
    (k'.proc q).joinVal = (k.proc q).joinVal := by
  rw [unlinkThread] at hs
  split at hs
  · rw [joinVal_moveCurrent hs, joinVal_setNext]
  · obtain ⟨x, _, hs⟩ := bind_eq_ok.mp hs
    obtain ⟨⟨k₂, prev⟩, hk₂, hs⟩ := bind_eq_ok.mp hs
    rw [joinVal_moveCurrent hs, joinVal_unlinkLoop hk₂]

/-- When `thread_join` returns, the thread is a zombie; the call returns 0 and stores the value of
    the thread. -/
theorem joinCheck_returns (hs : joinCheck k c m p = .ok k') (hret : k'.call c = .user) :
    (k.proc p).state = .ZOMBIE ∧ (k'.proc c).eax = 0 ∧
      (k'.proc c).joinVal = (k.proc p).retval := by
  rw [joinCheck] at hs
  split at hs
  · cases hs
    have hcall : (sleep (k.setCall c (.join m p)) c (.proc c)).call c = .join m p :=
      Function.update_self ..
    rw [hcall] at hret
    cases hret
  · rename_i hz
    obtain ⟨k₁, hk₁, hs⟩ := bind_eq_ok.mp hs
    cases hs
    have hval : (k₁.proc c).joinVal = (k.proc p).retval := by
      rw [joinVal_unlinkThread hk₁, setProc_self]
    have hfree : ((freeThread k₁ p).proc c).joinVal = (k₁.proc c).joinVal := by
      rw [freeThread, proc_setWalk, proc_setCall]
      by_cases hcp : c = p
      · subst hcp; rw [setProc_self]
      · rw [setProc_other hcp]
    refine ⟨not_not.mp hz, ?_, ?_⟩
    · rw [Kernel.ret, proc_setCall, setProc_self]
    · rw [Kernel.ret, proc_setCall, setProc_self]
      exact hfree.trans hval

/-- A step of `thread_join` that is about the thread `p`. -/
theorem joinTarget_step (hc : k.cpuProc = some c) (ht : joinTarget k c e = some p)
    (hs : step k e = .ok k') : ∃ m, joinCheck k c m p = .ok k' := by
  rw [step] at hs
  split at hs
  · cases hs
  cases e with
  | threadJoin tid =>
    obtain ⟨c', hc', _, hs⟩ := byUser_ok hs
    cases hc.symm.trans hc'
    obtain ⟨m, hm, hs⟩ := bind_eq_ok.mp hs
    have hfind : (walkFind k.next (fun p => (k.proc p).tid = tid ∧
        (k.proc p).joinThread = some c) NPROC (k.proc m).nextThread).join = some p := by
      rw [joinTarget, deref_ok hm] at ht
      exact ht
    split at hs
    · rename_i hnone; rw [hnone] at hfind; cases hfind
    · rename_i hnone; rw [hnone] at hfind; cases hfind
    · rename_i p' hp'
      rw [hp'] at hfind
      cases hfind
      exact ⟨m, hs⟩
  | joinCheck =>
    obtain ⟨c', hc', hs⟩ := byProc_ok hs
    cases hc.symm.trans hc'
    rw [joinTarget] at ht
    split at hs
    · rename_i m p' hcall
      rw [hcall] at ht
      cases ht
      exact ⟨m, hs⟩
    · cases hs
  | _ => cases ht

/-! ### The invariant -/

/-- What holds in every state of the run: nobody else is at work on the slot, the thread knows its
    creator, its value has been noted, and the creator does not sleep for a zombie. -/
structure HandshakeInv (c p : Slot) (s : Handshake) : Prop where
  owned : (s.kernel.proc p).state ≠ .UNUSED → ∀ q, (s.kernel.call q).newSlot ≠ some p
  creator : (s.kernel.proc p).state ≠ .UNUSED → (s.kernel.proc p).joinThread = some c
  passed : ∀ r, s.kernel.call p = .threadExit r → s.passed = some r
  exited : (s.kernel.proc p).state = .ZOMBIE → s.exited = some (s.kernel.proc p).retval
  awake : ∀ m, s.kernel.call c = .join m p → (s.kernel.proc c).state = .SLEEPING →
    (s.kernel.proc c).chan = some (.proc c) ∧ (s.kernel.proc p).state ≠ .ZOMBIE

theorem HandshakeInv.init (h : HandshakeInit c p s) : HandshakeInv c p s where
  owned _ := h.owned
  creator _ := h.creator
  passed r hr := absurd hr (h.before r)
  exited hz := absurd hz h.alive
  awake m hm := absurd hm (h.outside m)

/-- Nobody takes the slot while it is in use. -/
theorem HandshakeInv.owned_step (h : HandshakeInv c p s) (hp : (s.kernel.proc p).state ≠ .UNUSED)
    (hs : step s.kernel e = .ok k') (q : Slot) : (k'.call q).newSlot ≠ some p := by
  have hfirst : firstUnused s.kernel ≠ some p := fun hf => hp (firstUnused_state hf)
  intro hnew
  rcases step_call hs q with (hsame | ⟨huser, _⟩) | ⟨_, huser | henter⟩
  · rw [hsame] at hnew; exact h.owned hp q hnew
  · rw [huser] at hnew; cases hnew
  · rw [huser] at hnew; cases hnew
  · generalize hx : k'.call q = x at hnew henter
    cases henter with
    | fork _ np hnp => cases hnew; exact hfirst hnp
    | forkCopied _ np hcall => cases hnew; exact h.owned hp q (by rw [hcall]; rfl)
    | create _ m np _ hnp => cases hnew; exact hfirst hnp
    | _ => cases hnew

/-- A thread inside `thread_exit` has passed its value. -/
theorem HandshakeInv.passed_step (h : HandshakeInv c p s) (hs : step s.kernel e = .ok k') (r : Nat)
    (hr : k'.call p = .threadExit r) : notePass p s e = some r := by
  rcases step_call hs p with (hsame | ⟨huser, _⟩) | ⟨hc, huser | henter⟩
  · rw [hsame] at hr
    cases e with
    | threadExitBegin r' =>
      rw [notePass]
      split
      · -- the caller of `thread_exit` comes from user mode
        rename_i hc
        rw [step] at hs
        split at hs
        · cases hs
        obtain ⟨c', hc', huser, _⟩ := byUser_ok hs
        cases hc.symm.trans hc'
        rw [huser] at hr
        cases hr
      · exact h.passed r hr
    | _ => exact h.passed r hr
  · rw [huser] at hr; cases hr
  · rw [huser] at hr; cases hr
  · rw [hr] at henter
    cases henter with
    | threadExit => rw [notePass, if_pos hc]

/-- A zombie has executed `thread_exit` with its value. -/
theorem HandshakeInv.exited_step (h : HandshakeInv c p s) (he : Undisturbed c p s e)
    (hs : step s.kernel e = .ok k') (hz : (k'.proc p).state = .ZOMBIE) :
    noteExit p s e = some (k'.proc p).retval := by
  by_cases hexit : e = .threadExit ∧ s.kernel.cpuProc = some p
  · obtain ⟨rfl, hc⟩ := hexit
    obtain ⟨c', r, hc', hcall, hkept⟩ := kept_threadExit hs
    cases hc.symm.trans hc'
    have hret : (k'.proc p).retval = r := by
      have := congrArg Kept.retval (congrFun hkept p)
      rwa [Function.update_self] at this
    rw [noteExit, if_pos hc, h.passed r hcall, hret]
  · have hnote : noteExit p s e = s.exited := by
      cases e with
      | threadExit => rw [noteExit, if_neg fun hc => hexit ⟨rfl, hc⟩]
      | _ => rfl
    rcases slot_leaves hs he.1 (h.owned he.1) he.2.1 with ⟨hu, _⟩ | ⟨_, hret⟩
    · exact absurd (hz.symm.trans hu) (by decide)
    · rcases hret hz with ⟨hz₀, hret⟩ | hexit'
      · rw [hnote, h.exited hz₀]
        exact congrArg some hret.symm
      · exact absurd hexit' hexit

/-- The creator does not sleep for a zombie: `thread_exit` wakes it while it holds the lock. -/
theorem HandshakeInv.awake_step (h : HandshakeInv c p s) (he : Undisturbed c p s e)
    (hs : step s.kernel e = .ok k') (hc : k'.call c = .join m p)
    (hsleep : (k'.proc c).state = .SLEEPING) :
    (k'.proc c).chan = some (.proc c) ∧ (k'.proc p).state ≠ .ZOMBIE := by
  rcases step_sleeps hs hsleep with ⟨hslept, hchan, hcpu⟩ | hjoin
  · rcases step_call hs c with (hsame | ⟨huser, _⟩) | ⟨hrun, huser | henter⟩
    · rw [hsame] at hc
      obtain ⟨hchan₀, hp⟩ := h.awake m hc hslept
      refine ⟨hchan.trans hchan₀, fun hz => ?_⟩
      rcases slot_leaves hs he.1 (h.owned he.1) he.2.1 with ⟨hu, _⟩ | ⟨_, hret⟩
      · exact absurd (hz.symm.trans hu) (by decide)
      · rcases hret hz with ⟨hz₀, _⟩ | ⟨rfl, hpc⟩
        · exact hp hz₀
        · exact threadExit_wakes hpc (h.creator he.1) hchan₀ hs hsleep
    · rw [huser] at hc; cases hc
    · rw [huser] at hc; cases hc
    · rw [hc] at henter
      cases henter with
      | join _ _ _ hj => exact absurd hrun (hcpu hj)
  · exact hjoin m p hc

/-- One step of the run. -/
theorem HandshakeInv.step {s' : Handshake} (h : HandshakeInv c p s) (he : Undisturbed c p s e)
    (hs : handshakeStep p s e = .ok s') : HandshakeInv c p s' := by
  obtain ⟨k', hk', hs⟩ := bind_eq_ok.mp hs
  cases hs
  exact {
    owned := fun _ => h.owned_step he.1 hk'
    creator := fun hu => by
      rcases slot_leaves hk' he.1 (h.owned he.1) he.2.1 with ⟨hu', _⟩ | ⟨hj, _⟩
      · exact absurd hu' hu
      · exact hj.trans (h.creator he.1)
    passed := h.passed_step hk'
    exited := h.exited_step he hk'
    awake := fun _ => h.awake_step he hk' }

/-- For any interleaving of a thread in the slot `p` and its creator `c` with others that do not
    release the thread: the thread is never a zombie while its creator sleeps in `thread_join`
    for it, and when this `thread_join` returns, it returns 0, the thread has executed
    `thread_exit`, and its value is the one that is stored. -/
theorem join_handshake (h : Reachable (HandshakeInit c p) (Steps (handshakeStep p)
    (Undisturbed c p)) s) :
    (∀ m, s.kernel.call c = .join m p → (s.kernel.proc p).state = .ZOMBIE →
      (s.kernel.proc c).state ≠ .SLEEPING) ∧
    ∀ e k', s.kernel.cpuProc = some c → joinTarget s.kernel c e = some p →
      Thread.step s.kernel e = .ok k' → k'.call c = .user →
      (k'.proc c).eax = 0 ∧ ∃ v, s.exited = some v ∧ (k'.proc c).joinVal = v := by
  have hinv : HandshakeInv c p s := h.invariant (fun _ => HandshakeInv.init)
    fun _ _ hi ⟨_, he, hs⟩ => hi.step he hs
  refine ⟨fun m hm hz hsleep => (hinv.awake m hm hsleep).2 hz, fun e k' hc ht hs hret => ?_⟩
  obtain ⟨m, hjoin⟩ := joinTarget_step hc ht hs
  obtain ⟨hz, heax, hval⟩ := joinCheck_returns hjoin hret
  exact ⟨heax, _, hinv.exited hz, hval⟩

/-- A process sleeps in `thread_join` until its thread exits with the value 5, and then returns. -/
theorem join_handshake_waits : ∃ (s : Handshake) (k' : Kernel), s.exited = some 5 ∧ s.kernel.call 1 = .join 1 2 ∧
    Thread.step s.kernel .joinCheck = .ok k' ∧ (k'.proc 1).eax = 0 ∧ (k'.proc 1).joinVal = 5 := by
  obtain ⟨k₀, h₀⟩ : ∃ k, userinit boot 7 = .ok k := ⟨_, rfl⟩
  -- the thread 2 has just been created by 1, which is still in user mode
  obtain ⟨k₁, _, h₁⟩ := exec_of_execTest Thread.step k₀ twoThreads (fun k =>
    decide ((k.proc 2).state = .RUNNABLE ∧ (k.proc 2).joinThread = some 1 ∧
      (∀ q, (k.call q).newSlot ≠ some 2) ∧ k.call 1 = .user ∧ k.call 2 = .user) &&
    reachTest (handshakeStep 2) (Undisturbed 1 2) (fun s =>
      decide (s.kernel.cpuProc = some 1 ∧ joinTarget s.kernel 1 .joinCheck = some 2 ∧
        s.kernel.call 1 = .join 1 2 ∧ s.exited = some 5) &&
      match Thread.step s.kernel .joinCheck with
      | .ok k' => decide (k'.call 1 = .user)
      | .error _ => false) ⟨k, none, none⟩
      ([.threadJoin 1, .schedule] ++ threadExitSteps 5 ++ [.schedule, .schedule]))
    (by cases h₀; decide +kernel)
  rw [Bool.and_eq_true, decide_eq_true_eq] at h₁
  obtain ⟨⟨hst, hj, howned, hu₁, hu₂⟩, hrun⟩ := h₁
  have hstart : Reachable (HandshakeInit 1 2) (Steps (handshakeStep 2) (Undisturbed 1 2))
      ⟨k₁, none, none⟩ := .start
    { used := by rw [hst]; decide
      alive := by rw [hst]; decide
      creator := hj
      owned := howned
      before := fun r hr => by rw [hu₂] at hr; cases hr
      outside := fun m hm => by rw [hu₁] at hm; cases hm }
  obtain ⟨s, hs, hp⟩ := reachable_of_reachTest _ _ _ _ hstart hrun
  rw [Bool.and_eq_true, decide_eq_true_eq] at hp
  obtain ⟨⟨hc, ht, hcall, hexit⟩, hret⟩ := hp
  split at hret
  · rename_i k' hk'
    obtain ⟨heax, v, hv, hval⟩ := (join_handshake hs).2 _ k' hc ht hk' (of_decide_eq_true hret)
    cases hexit.symm.trans hv
    exact ⟨s, k', hexit, hcall, hk', heax, hval⟩
  · cases hret

end Xv6.Thread
