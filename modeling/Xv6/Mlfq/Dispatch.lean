import Xv6.Mlfq.Lock

namespace Xv6.Mlfq

open Xv6.Lib

/-!
# MLFQ scheduler — which processes are dispatched

`scheduler()` does not look at the state of the process it switches to.  It dispatches
`RUNNABLE` processes only as long as everything it can meet, in a queue or in its variable `p`
while it is locked, is `RUNNABLE`.  A running process that gives up the CPU in another state
must therefore not stay behind in a queue or as the lock holder.

* `CanLeave` — the condition under which the running process can do so: without the lock it is
  linked nowhere; with the lock `schedulerUnlock` finds it and `dequeue_specific` removes it;
* `DispatchInv` — the invariant of the runs in which processes only leave under that condition;
* `dispatched_are_runnable` — in such runs only `RUNNABLE` processes are dispatched;
* `sleeper_dispatched` — a run in which a holder of the lock that sleeps is dispatched again.
-/

/-- The running process `p` leaves nothing behind when it gives up the CPU in a state other
    than `RUNNABLE`. -/
def CanLeave (k : Kernel) (p : Slot) : Prop :=
  if k.schedulerLocked then
    (k.proc p).alreadyEnqueued = true ∧ (k.proc p).level < 3 ∧ LinkedIn k (k.proc p).level p ∧
      ¬ Linked k.next (k.next p) p ∧ ∀ l, l ≠ (k.proc p).level → ¬ LinkedIn k l p
  else ∀ l, ¬ LinkedIn k l p

/-- The step makes the running process `p` give up the CPU in a state other than `RUNNABLE`. -/
def Leaves (k : Kernel) (p : Slot) : Step → Prop
  | .exit => True
  | .sleep _ => True
  | .wait => (∀ i, (k.proc i).parent = some p → (k.proc i).state ≠ .ZOMBIE) ∧
      (∃ i, (k.proc i).parent = some p) ∧ (k.proc p).killed = false
  | .schedulerLock pw => k.schedulerLocked = false ∧ pw ≠ schedPassword
  | .schedulerUnlock pw => k.schedulerLocked = true ∧ pw ≠ schedPassword
  | _ => False

/-- The condition on the steps of a run: whoever leaves can leave. -/
def LeavesCleanly (k : Kernel) (e : Step) : Prop :=
  ∀ p, k.cpuProc = some p → Leaves k p e → CanLeave k p

/-- Everything the scheduler can meet is `RUNNABLE`, or is running. -/
structure DispatchInv (k : Kernel) : Prop extends LockInv k where
  running : ∀ p, k.cpuProc = some p → (k.proc p).state = .RUNNING
  linked : ∀ l x, LinkedIn k l x → (k.proc x).state = .RUNNABLE ∨ k.cpuProc = some x
  kept : k.cpuProc = none → k.schedulerLocked = true → ∀ x, k.schedP = some x →
    (k.proc x).state = .RUNNABLE
  np : ∀ i c, k.np i = some c → (k.proc c).state = .EMBRYO
  npInj : ∀ i j c, k.np i = some c → k.np j = some c → i = j

namespace DispatchInv

variable {k k' : Kernel} {p : Slot}

/-- The linked processes cover the queues, and are `RUNNABLE` or running. -/
theorem covers (h : DispatchInv k) :
    ∃ S, Covers S k ∧ ∀ x, S x → (k.proc x).state = .RUNNABLE ∨ k.cpuProc = some x :=
  ⟨_, .linked k, fun x ⟨l, hx⟩ => h.linked l x hx⟩

/-- A process in another state than `RUNNABLE` and `RUNNING` is linked nowhere. -/
theorem not_linked (h : DispatchInv k) (hp : (k.proc p).state ≠ .RUNNABLE)
    (hp' : (k.proc p).state ≠ .RUNNING) (l : Nat) : ¬ LinkedIn k l p := by
  intro hl
  rcases h.linked l p hl with hs | hcpu
  · exact hp hs
  · exact hp' (h.running p hcpu)

/-- The links may change inside a covering set as long as all roles stay. -/
theorem congr (h : DispatchInv k) (hsame : SameRoles k k')
    (hcov : ∀ S, Covers S k → ∃ S', Covers S' k' ∧
      ∀ x, S' x → S x ∨ (k.proc x).state = .RUNNABLE) : DispatchInv k' := by
  obtain ⟨S, hS, hrun⟩ := h.covers
  obtain ⟨S', hS', hsub⟩ := hcov S hS
  refine ⟨h.toLockInv.congr (.of_roles hsame), fun q hq => ?_, fun l x hx => ?_,
    fun hcpu hl x hx => ?_, fun i c hc => ?_, ?_⟩
  · rw [hsame.cpuProc] at hq
    rw [hsame.state, h.running q hq]
  · rw [hsame.state, hsame.cpuProc]
    rcases hsub x (hS'.of_linked hx) with hx' | hx'
    · exact hrun x hx'
    · exact .inl hx'
  · rw [hsame.cpuProc] at hcpu
    rw [hsame.schedulerLocked] at hl
    rw [hsame.schedP] at hx
    rw [hsame.state]
    exact h.kept hcpu hl x hx
  · rw [hsame.np] at hc
    rw [hsame.state, h.np i c hc]
  · rw [hsame.np]; exact h.npInj

/-- A change of fields that play no role. -/
theorem setProc_inert (h : DispatchInv k) (p : Slot) {f : Proc → Proc}
    (hf : ∀ q, (f q).state = q.state ∧ (f q).lockScheduler = q.lockScheduler ∧
      (f q).next = q.next) : DispatchInv (k.setProc p f) :=
  h.congr (.setProc k p fun q => ⟨(hf q).1, (hf q).2.1⟩) fun S hS =>
    ⟨S, hS.setProc_keep p fun q => (hf q).2.2, fun _ => .inl⟩

/-- A new value of the globals that play no role, and of `np`. -/
theorem of_proc_eq (h : DispatchInv k) (hproc : k'.proc = k.proc)
    (hq : k'.levelQueue = k.levelQueue)
    (hlock : SameLock k k') (hnp : ∀ i c, k'.np i = some c → (k.proc c).state = .EMBRYO)
    (hinj : ∀ i j c, k'.np i = some c → k'.np j = some c → i = j) : DispatchInv k' := by
  have hnext : k'.next = k.next := by funext i; rw [Kernel.next, Kernel.next, hproc]
  refine ⟨h.toLockInv.congr hlock, ?_, fun l x hx => ?_, ?_, ?_, hinj⟩
  · rw [hlock.cpuProc, hproc]; exact h.running
  · rw [LinkedIn, hnext, hq] at hx
    rw [hlock.cpuProc, hproc]
    exact h.linked l x hx
  · rw [hlock.cpuProc, hlock.schedulerLocked, hlock.schedP, hproc]; exact h.kept
  · rw [hproc]; exact hnp

/-- Any change of a process that is neither `RUNNABLE` nor `RUNNING`. -/
theorem setProc (h : DispatchInv k) {f : Proc → Proc} (hp : (k.proc p).state ≠ .RUNNABLE)
    (hp' : (k.proc p).state ≠ .RUNNING)
    (hf : ∀ q, (f q).lockScheduler = q.lockScheduler)
    (hnp : ∀ i, k.np i = some p → (f (k.proc p)).state = .EMBRYO) :
    DispatchInv (k.setProc p f) := by
  obtain ⟨S, hS, hrun⟩ := h.covers
  have hSp : ¬ S p := by
    intro hm
    rcases hrun p hm with hs | hcpu
    · exact hp hs
    · exact hp' (h.running p hcpu)
  have hS' := hS.setProc_out p f hSp
  have hne : ∀ x, ((k.proc x).state = .RUNNABLE ∨ (k.proc x).state = .RUNNING) →
      ((k.setProc p f).proc x).state = (k.proc x).state := by
    intro x hx
    have hxp : x ≠ p := by
      rintro rfl
      rcases hx with hx | hx
      · exact hp hx
      · exact hp' hx
    rw [setProc_proc_of_ne _ _ _ _ hxp]
  refine ⟨h.toLockInv.congr (.setProc k p hf), fun q hq => ?_, fun l x hx => ?_,
    fun hcpu hl x hx => ?_, fun i c hc => ?_, h.npInj⟩
  · rw [hne q (.inr (h.running q hq)), h.running q hq]
  · rcases hrun x (hS'.of_linked hx) with hs | hcpu
    · exact .inl (by rw [hne x (.inl hs), hs])
    · exact .inr hcpu
  · have hs := h.kept hcpu hl x hx
    rw [hne x (.inl hs), hs]
  · by_cases hcp : c = p
    · subst hcp; rw [setProc_proc_self]; exact hnp i hc
    · rw [setProc_proc_of_ne _ _ _ _ hcp]
      exact h.np i c hc

/-- What a step that wakes processes keeps: the invariant, the CPU, and that the running process
    can leave. -/
structure Woken (k k' : Kernel) : Prop where
  inv : DispatchInv k'
  cpuProc : k'.cpuProc = k.cpuProc
  canLeave : ∀ q, k.cpuProc = some q → CanLeave k q → CanLeave k' q

theorem Woken.refl (h : DispatchInv k) : Woken k k := ⟨h, rfl, fun _ _ hq => hq⟩

theorem Woken.trans {k'' : Kernel} (h : Woken k k') (h' : Woken k' k'') : Woken k k'' :=
  ⟨h'.inv, h'.cpuProc.trans h.cpuProc, fun q hq hc =>
    h'.canLeave q (h.cpuProc.trans hq) (h.canLeave q hq hc)⟩

/-- Waking a process that is neither `RUNNABLE` nor `RUNNING`. -/
theorem makeRunnable (h : DispatchInv k) (hp : (k.proc p).state ≠ .RUNNABLE)
    (hp' : (k.proc p).state ≠ .RUNNING) (hnp : ∀ i, k.np i ≠ some p)
    (hrun : Mlfq.makeRunnable k p = .ok k') : Woken k k' := by
  have h₁ : DispatchInv (k.setProc p fun q => { q with state := .RUNNABLE }) :=
    h.setProc hp hp' (fun _ => by rfl) fun i hi => absurd hi (hnp i)
  have hsame := enqueue_sameButLinks hrun
  refine ⟨h₁.congr (.of_links hsame) fun S hS => ?_, hsame.cpuProc, fun q hq hleave => ?_⟩
  · obtain ⟨S', hS', hsub⟩ := enqueue_covers hrun hS
    refine ⟨S', hS', fun x hx => ?_⟩
    rcases hsub x hx with hx | rfl
    · exact .inl hx
    · exact .inr (by simp)
  · have hqp : q ≠ p := by
      rintro rfl
      exact hp' (h.running q hq)
    have hproc : (k.setProc p fun q => { q with state := .RUNNABLE }).proc q = k.proc q :=
      setProc_proc_of_ne _ _ _ _ hqp
    have hnext : (k.setProc p fun q => { q with state := .RUNNABLE }).next = k.next := by
      funext i
      rw [Kernel.next, Kernel.next]
      by_cases hip : i = p
      · subst hip; rw [setProc_proc_self]
      · rw [setProc_proc_of_ne _ _ _ _ hip]
    have hleave₁ : CanLeave (k.setProc p fun q => { q with state := .RUNNABLE }) q := by
      simpa only [CanLeave, LinkedIn, hnext, hproc, setProc_schedulerLocked,
        setProc_levelQueue] using hleave
    rcases enqueue_appends hrun with heq | happ
    · rw [heq]; exact hleave₁
    · have hpl : ∀ l, ¬ LinkedIn (k.setProc p fun q => { q with state := .RUNNABLE }) l p := by
        intro l hl
        rw [LinkedIn, hnext] at hl
        exact h.not_linked hp hp' l hl
      simp only [CanLeave, hsame.schedulerLocked, hsame.level_eq, happ.flag q hqp,
        happ.linkedIn_iff (hpl _) hqp] at hleave₁ ⊢
      split at hleave₁
      · rename_i hl
        rw [if_pos hl]
        obtain ⟨hflag, hlev, hlink, hloop, honly⟩ := hleave₁
        exact ⟨hflag, hlev, hlink, fun hl' => hloop (happ.loop hqp hl'), honly⟩
      · rename_i hl
        rw [if_neg hl]
        exact hleave₁

theorem wakeSleeper (h : DispatchInv k) (hp : (k.proc p).state = .SLEEPING)
    (hrun : Mlfq.makeRunnable k p = .ok k') : Woken k k' := by
  refine h.makeRunnable (by rw [hp]; decide) (by rw [hp]; decide) (fun i hi => ?_) hrun
  have := h.np i p hi
  rw [hp] at this
  cases this

theorem wakeOne (h : DispatchInv k) {chan : Option Chan}
    (hrun : Mlfq.wakeOne chan k p = .ok k') : Woken k k' := by
  rw [Mlfq.wakeOne] at hrun
  split at hrun
  · rename_i hp
    exact h.wakeSleeper hp.1 hrun
  · cases hrun; exact .refl h

theorem wakeup1 (h : DispatchInv k) {chan : Option Chan}
    (hrun : Mlfq.wakeup1 k chan = .ok k') : Woken k k' :=
  foldlM_invariant (I := Woken k) (fun _ _ _ h₁ h₂ => h₁.trans (h₁.inv.wakeOne h₂)) (.refl h) hrun

theorem kill (h : DispatchInv k) {pid : Int} (hrun : Mlfq.kill k pid = .ok k') :
    DispatchInv k' := by
  rw [Mlfq.kill] at hrun
  split at hrun
  · cases hrun; exact h
  · rename_i p _
    have h' : DispatchInv (k.setProc p fun q => { q with killed := true }) :=
      h.setProc_inert p fun _ => ⟨rfl, rfl, rfl⟩
    simp only at hrun
    split at hrun
    · rename_i hp
      exact (h'.wakeSleeper hp hrun).inv
    · cases hrun; exact h'

theorem setPriority (h : DispatchInv k) (pid priority : Int) :
    DispatchInv (Mlfq.setPriority k pid priority) := by
  rw [Mlfq.setPriority]
  split
  · exact h
  · split
    · exact h
    · exact h.setProc_inert _ fun _ => ⟨rfl, rfl, rfl⟩

/-! ### `fork` -/

theorem allocproc (h : DispatchInv k) :
    Mlfq.allocproc k = (none, k) ∨ ∃ c k', Mlfq.allocproc k = (some c, k') ∧ DispatchInv k' ∧
      (k'.proc c).state = .EMBRYO ∧ ∀ i, k'.np i ≠ some c := by
  rw [Mlfq.allocproc]
  split
  · exact .inl rfl
  · rename_i c hc
    have hc' : (k.proc c).state = .UNUSED := by
      have := List.find?_some hc
      simpa using this
    have hnp : ∀ i, k.np i ≠ some c := by
      intro i hi
      have := h.np i c hi
      rw [hc'] at this
      cases this
    have h' : DispatchInv { k with nextpid := k.nextpid + 1 } :=
      h.of_proc_eq rfl rfl ⟨rfl, rfl, rfl, fun _ => rfl⟩ h.np h.npInj
    exact .inr ⟨c, _, rfl, h'.setProc (by simp [hc']) (by simp [hc']) (fun _ => by rfl)
      fun i hi => absurd hi (hnp i), by simp, hnp⟩

theorem forkAlloc (h : DispatchInv k) (p : Slot) (ok : Bool) :
    DispatchInv (Mlfq.forkAlloc k p ok) := by
  rw [Mlfq.forkAlloc]
  rcases h.allocproc with hrun | ⟨c, k', hrun, h', hc, hnp⟩
  · rw [hrun]; exact h
  · rw [hrun]
    simp only
    split
    · refine h'.of_proc_eq rfl rfl ⟨rfl, rfl, rfl, fun _ => rfl⟩ (fun i d hd => ?_)
        fun i j d hi hj => ?_
      · by_cases hip : i = p
        · subst hip
          simp only [Function.update_self, Option.some.injEq] at hd
          exact hd ▸ hc
        · simp only [Function.update_of_ne hip] at hd
          exact h'.np i d hd
      · by_cases hip : i = p
        · by_cases hjp : j = p
          · exact hip.trans hjp.symm
          · subst hip
            simp only [Function.update_self, Option.some.injEq, Function.update_of_ne hjp] at hi hj
            exact absurd (hi ▸ hj) (hnp j)
        · by_cases hjp : j = p
          · subst hjp
            simp only [Function.update_self, Option.some.injEq, Function.update_of_ne hip] at hi hj
            exact absurd (hj ▸ hi) (hnp i)
          · simp only [Function.update_of_ne hip, Function.update_of_ne hjp] at hi hj
            exact h'.npInj i j d hi hj
    · exact h'.setProc (by simp [hc]) (by simp [hc]) (fun _ => by rfl) fun i hi =>
        absurd hi (hnp i)

theorem forkFinish (h : DispatchInv k) {ok : Bool} (hrun : Mlfq.forkFinish k p ok = .ok k') :
    DispatchInv k' := by
  rw [Mlfq.forkFinish] at hrun
  split at hrun
  · cases hrun
  · rename_i c hc
    have hembryo := h.np p c hc
    -- `p` has left `fork`; its child is referenced by nobody else
    have hle : ∀ i d, Function.update k.np p none i = some d → i ≠ p ∧ k.np i = some d := by
      intro i d hd
      by_cases hip : i = p
      · subst hip; simp at hd
      · rw [Function.update_of_ne hip] at hd
        exact ⟨hip, hd⟩
    have hnp : ∀ i, Function.update k.np p none i ≠ some c := fun i hi =>
      (hle i c hi).1 (h.npInj i p c (hle i c hi).2 hc)
    have h' : DispatchInv { k with np := Function.update k.np p none } :=
      h.of_proc_eq rfl rfl ⟨rfl, rfl, rfl, fun _ => rfl⟩ (fun i d hd => h.np i d (hle i d hd).2)
        fun i j d hi hj => h.npInj i j d (hle i d hi).2 (hle j d hj).2
    simp only at hrun
    split at hrun
    · have h'' : DispatchInv ({ k with np := Function.update k.np p none }.setProc c
          fun q => { q with parent := some p }) := h'.setProc_inert c fun _ => ⟨rfl, rfl, rfl⟩
      exact (h''.makeRunnable (by simp [hembryo]) (by simp [hembryo]) hnp hrun).inv
    · cases hrun
      exact h'.setProc (by simp [hembryo]) (by simp [hembryo]) (fun _ => by rfl) fun i hi =>
        absurd hi (hnp i)

/-! ### The second half of a scheduler round -/

/-- An idle machine keeps the invariant under a change of links inside a covering set. -/
theorem unlockFound (h : DispatchInv k) (hp : k.schedP = some p)
    (hfound : findHolder k [0, 1, 2] = .ok (some p))
    (hrun : Mlfq.unlockFound k p = .ok k') : DispatchInv k' := by
  obtain ⟨hu, hcov⟩ := unlockFound_effect hrun
  obtain ⟨hlock, hfree⟩ := h.toLockInv.unlockFound hp hrun
  obtain ⟨S, hS, hall⟩ := h.covers
  obtain ⟨⟨l, _, hl⟩, _⟩ := findHolder_some hfound
  have hS' := hcov S hS (hS.of_linked hl)
  refine ⟨hlock, fun q hq => ?_, fun l x hx => ?_, fun _ hl => ?_, fun i c hc => ?_, ?_⟩
  · rw [hu.cpuProc] at hq
    rw [hu.state, h.running q hq]
  · rw [hu.state, hu.cpuProc]
    exact hall x (hS'.of_linked hx)
  · rw [hfree] at hl; cases hl
  · rw [hu.np] at hc
    rw [hu.state, h.np i c hc]
  · rw [hu.np]; exact h.npInj

theorem unlockHolder (h : DispatchInv k) (hrun : Mlfq.unlockHolder k = .ok k') :
    DispatchInv k' := by
  rcases unlockHolder_effect hrun with ⟨rfl, _⟩ | ⟨p, hp, hrun⟩
  · exact h
  · exact h.unlockFound (h.toLockInv.found hp) hp hrun

theorem boostIfDue (h : DispatchInv k) (hrun : Mlfq.boostIfDue k = .ok k') : DispatchInv k' := by
  rw [Mlfq.boostIfDue] at hrun
  split at hrun
  · rw [boost] at hrun
    simp only [bind_eq_ok] at hrun
    obtain ⟨k₁, hk₁, k₂, hk₂, hrun⟩ := hrun
    cases hrun
    obtain ⟨hsame, hcov, _⟩ := boostQueues_effect hk₁
    have h₁ : DispatchInv k₁ := h.congr hsame fun S hS => ⟨S, hcov S hS, fun _ => .inl⟩
    have h₂ : DispatchInv k₂ := by
      rw [unlockBoosted] at hk₂
      split at hk₂
      · exact h₁.unlockHolder hk₂
      · cases hk₂; exact h₁
    exact h₂.of_proc_eq rfl rfl ⟨rfl, rfl, rfl, fun _ => rfl⟩ h₂.np h₂.npInj
  · cases hrun; exact h

theorem changeLevel (h : DispatchInv k) (hrun : Mlfq.changeLevel k p = .ok k') :
    DispatchInv k' := by
  rw [Mlfq.changeLevel] at hrun
  split at hrun
  · simp only [bind_eq_ok] at hrun
    obtain ⟨k₁, hk₁, hrun⟩ := hrun
    cases hrun
    have h₁ : DispatchInv k₁ := by
      rw [leaveLevel] at hk₁
      split at hk₁
      · exact h.congr (.of_links (dequeueSpecific_sameButLinks hk₁)) fun S hS =>
          ⟨S, dequeueSpecific_covers hk₁ hS, fun _ => .inl⟩
      · cases hk₁; exact h
    exact h₁.setProc_inert p fun _ => ⟨rfl, rfl, rfl⟩
  · split at hrun
    · cases hrun; exact h.setProc_inert p fun _ => ⟨rfl, rfl, rfl⟩
    · cases hrun; exact h

theorem requeue (h : DispatchInv k) (hrun : Mlfq.requeue k p = .ok k') : DispatchInv k' := by
  rw [Mlfq.requeue] at hrun
  split at hrun
  · rename_i hp
    refine h.congr (.of_links (enqueue_sameButLinks hrun)) fun S hS => ?_
    obtain ⟨S', hS', hsub⟩ := enqueue_covers hrun hS
    refine ⟨S', hS', fun x hx => ?_⟩
    rcases hsub x hx with hx | rfl
    · exact .inl hx
    · exact .inr hp
  · cases hrun; exact h

theorem forgetP (h : DispatchInv k) (hcpu : k.cpuProc = none) :
    DispatchInv (Mlfq.forgetP k) := by
  have hlock := h.toLockInv.forgetP hcpu
  rw [Mlfq.forgetP] at hlock ⊢
  split
  · exact h
  · rename_i hfree
    rw [if_neg hfree] at hlock
    exact ⟨hlock, h.running, h.linked, fun _ hl => absurd hl hfree, h.np, h.npInj⟩

/-- What is left of the round once the lock has been given up. -/
theorem finishRound (h : DispatchInv k) (hcpu : k.cpuProc = none) {k₂ k₃ : Kernel}
    (hk₂ : Mlfq.changeLevel k p = .ok k₂) (hk₃ : Mlfq.requeue k₂ p = .ok k₃)
    (hrun : Mlfq.boostIfDue (Mlfq.forgetP k₃) = .ok k') : DispatchInv k' := by
  have hcpu₃ : k₃.cpuProc = none :=
    ((requeue_roles hk₃).cpuProc.trans (changeLevel_roles hk₂).cpuProc).trans hcpu
  exact (((h.changeLevel hk₂).requeue hk₃).forgetP hcpu₃).boostIfDue hrun

/-- The running process comes back `RUNNABLE`. -/
theorem yield (h : DispatchInv k) (hcpu : k.cpuProc = some p)
    (hrun : Mlfq.yield k p = .ok k') : DispatchInv k' := by
  obtain ⟨k₁, k₂, k₃, hk₁, hk₂, hk₃, hrun⟩ := schedReturn_eq_ok.mp hrun
  have hstate : ∀ x, ((k.proc x).state = .RUNNABLE ∨ k.cpuProc = some x) →
      ((k.setProc p fun q => { q with state := .RUNNABLE }).proc x).state = .RUNNABLE := by
    intro x hx
    by_cases hxp : x = p
    · subst hxp; simp
    · rw [setProc_proc_of_ne _ _ _ _ hxp]
      refine hx.resolve_right fun hx => hxp ?_
      rw [hcpu, Option.some.injEq] at hx
      exact hx.symm
  obtain ⟨S, hS, hall⟩ := h.covers
  have hS' : Covers S (k.setProc p fun q => { q with state := .RUNNABLE }) :=
    hS.setProc_keep p fun _ => rfl
  have h₀ : DispatchInv { k.setProc p fun q => { q with state := .RUNNABLE } with
      cpuProc := none } := by
    refine ⟨(h.toLockInv.congr (.setProc k p fun _ => by rfl)).offCpu, fun q hq => by simp at hq,
      fun l x hx => .inl (hstate x (hall x (hS'.of_linked hx))), fun _ _ x hx => ?_,
      fun i c hc => ?_, h.npInj⟩
    · refine hstate x (.inr ?_)
      have := h.onCpu p hcpu
      simp only [setProc_schedP] at hx
      rw [hcpu, ← hx, this]
    · have hcp : c ≠ p := by
        rintro rfl
        have := h.np i c hc
        rw [h.running c hcpu] at this
        cases this
      simp only [setProc_proc_of_ne _ _ _ _ hcp]
      exact h.np i c hc
  rw [giveUpLock, if_neg (by simp)] at hk₁
  cases hk₁
  exact h₀.finishRound rfl hk₂ hk₃ hrun

/-- The running process gives up the CPU in another state, and can. -/
theorem leave (h : DispatchInv k) (hcpu : k.cpuProc = some p) (hleave : CanLeave k p)
    {f : Proc → Proc} (hf : ∀ q, (f q).next = q.next ∧ (f q).alreadyEnqueued = q.alreadyEnqueued ∧
      (f q).level = q.level ∧ (f q).lockScheduler = q.lockScheduler)
    (hs : ∀ q, (f q).state ≠ .RUNNABLE ∧ (f q).state ≠ .RUNNING)
    (hrun : schedReturn (k.setProc p f) p = .ok k') : DispatchInv k' := by
  obtain ⟨k₁, k₂, k₃, hk₁, hk₂, hk₃, hrun⟩ := schedReturn_eq_ok.mp hrun
  generalize hk₀ : { k.setProc p f with cpuProc := none } = k₀ at hk₁
  have hproc : ∀ x, x ≠ p → k₀.proc x = k.proc x := by
    intro x hx
    rw [← hk₀]
    exact setProc_proc_of_ne _ _ _ _ hx
  have hself : k₀.proc p = f (k.proc p) := by rw [← hk₀]; exact setProc_proc_self _ _ _
  have hcpu₀ : k₀.cpuProc = none := by rw [← hk₀]
  have hnext : k₀.next = k.next := by
    funext i
    rw [Kernel.next, Kernel.next]
    by_cases hip : i = p
    · subst hip; rw [hself, (hf _).1]
    · rw [hproc i hip]
  have hqueue : k₀.levelQueue = k.levelQueue := by rw [← hk₀]; rfl
  have hlocked : k₀.schedulerLocked = k.schedulerLocked := by rw [← hk₀]; rfl
  have hlink : ∀ l x, LinkedIn k₀ l x ↔ LinkedIn k l x := by
    intro l x
    rw [LinkedIn, LinkedIn, hnext, hqueue]
  have hinv₀ : LockInv k₀ := by
    rw [← hk₀]
    exact (h.toLockInv.congr (.setProc k p fun q => (hf q).2.2.2)).offCpu
  have hschedP : k₀.schedP = some p := by rw [← hk₀]; exact h.onCpu p hcpu
  have hnp₀ : k₀.np = k.np := by rw [← hk₀]; rfl
  have hembryo : ∀ i c, k₀.np i = some c → (k₀.proc c).state = .EMBRYO := by
    intro i c hc
    rw [hnp₀] at hc
    have hce := h.np i c hc
    rw [hproc c, hce]
    rintro rfl
    rw [h.running c hcpu] at hce
    cases hce
  -- once the lock is given up, everything that is left in a queue is `RUNNABLE`
  have hothers : ∀ x, x ≠ p → (∃ l, LinkedIn k₀ l x) → (k₀.proc x).state = .RUNNABLE := by
    rintro x hxp ⟨l, hx⟩
    rw [hproc x hxp]
    refine (h.linked l x ((hlink l x).mp hx)).resolve_right fun hx => hxp ?_
    rw [hcpu, Option.some.injEq] at hx
    exact hx.symm
  have h₁ : DispatchInv k₁ ∧ k₁.cpuProc = none := by
    rw [CanLeave] at hleave
    rw [giveUpLock] at hk₁
    split at hk₁
    · rename_i hl
      have hl' : k.schedulerLocked = true := by rw [← hlocked]; exact hl.1
      rw [if_pos hl'] at hleave
      obtain ⟨hflag, hlev, hin, hloop, honly⟩ := hleave
      have hlev₀ : (k₀.proc p).level = (k.proc p).level := by rw [hself, (hf _).2.2.1]
      rcases unlockHolder_effect hk₁ with ⟨rfl, hnone⟩ | ⟨x, hx, hk₁⟩
      · -- the holder is linked, so it would have been found
        exfalso
        rcases hnone with hfree | hnone
        · rw [hfree] at hl; simp at hl
        · obtain ⟨y, hy, hheld⟩ := hinv₀.held hl.1
          rw [hschedP, Option.some.injEq] at hy
          subst hy
          have hmem : (k.proc p).level ∈ [0, 1, 2] := by
            simp only [List.mem_cons, List.not_mem_nil, or_false]
            omega
          rw [findHolder_none hnone hmem ((hlink _ _).mpr hin)] at hheld
          cases hheld
      · have hxp : x = p := by
          have := hinv₀.found hx
          rw [hschedP, Option.some.injEq] at this
          exact this.symm
        subst hxp
        obtain ⟨hu, _⟩ := unlockFound_effect hk₁
        obtain ⟨hlock, hfree⟩ := hinv₀.unlockFound hschedP hk₁
        refine ⟨⟨hlock, fun q hq => ?_, fun l y hy => ?_, fun _ hl => ?_, fun i c hc => ?_, ?_⟩,
          hu.cpuProc.trans hcpu₀⟩
        · rw [hu.cpuProc, hcpu₀] at hq; cases hq
        · have hcov := unlockFound_removes hk₁ (by rw [hself]; exact hs _)
            (by rw [hself, (hf _).2.1, hflag]) (by rw [hlev₀]; exact (hlink _ _).mpr hin)
            (by rw [hnext]; exact hloop)
            fun l hl hl' => honly l (by rwa [hlev₀] at hl) ((hlink l x).mp hl')
          obtain ⟨hyx, hy⟩ := hcov.of_linked hy
          exact .inl (by rw [hu.state]; exact hothers y hyx hy)
        · rw [hfree] at hl; cases hl
        · rw [hu.np] at hc
          rw [hu.state, hembryo i c hc]
        · rw [hu.np, hnp₀]; exact h.npInj
    · rename_i hl
      cases hk₁
      have hfree : ¬ k.schedulerLocked = true := by
        intro hl'
        refine hl ⟨by rw [hlocked, hl'], ?_⟩
        rw [hself]
        exact (hs _).1
      rw [if_neg hfree] at hleave
      refine ⟨⟨hinv₀, fun q hq => ?_, fun l x hx => .inl (hothers x ?_ ⟨l, hx⟩),
        fun _ hl => ?_, hembryo, ?_⟩, hcpu₀⟩
      · rw [hcpu₀] at hq; cases hq
      · rintro rfl
        exact hleave l ((hlink l x).mp hx)
      · rw [hlocked] at hl; exact absurd hl hfree
      · rw [hnp₀]; exact h.npInj
  exact h₁.1.finishRound h₁.2 hk₂ hk₃ hrun

/-! ### One step -/

theorem exit (h : DispatchInv k) (hcpu : k.cpuProc = some p) (hleave : CanLeave k p)
    (hrun : Mlfq.exit k p = .ok k') : DispatchInv k' := by
  rw [Mlfq.exit] at hrun
  split at hrun
  · cases hrun
  · simp only [bind_eq_ok] at hrun
    obtain ⟨k₁, hk₁, k₂, hk₂, hrun⟩ := hrun
    have h₁ := h.wakeup1 hk₁
    -- passing the children to init only wakes sleepers
    have h₂ : Woken k₁ k₂ := by
      refine foldlM_invariant (I := Woken k₁) (fun m c m' hm hc => ?_) (.refl h₁.inv) hk₂
      rw [reparentOne] at hc
      split at hc
      · have hm' : Woken m (m.setProc c fun q => { q with parent := m.initproc }) := by
          refine ⟨hm.inv.setProc_inert c fun _ => ⟨rfl, rfl, rfl⟩, rfl, fun q _ hq => ?_⟩
          have hnext : (m.setProc c fun q => { q with parent := m.initproc }).next = m.next := by
            funext i
            rw [Kernel.next, Kernel.next]
            by_cases hic : i = c
            · subst hic; rw [setProc_proc_self]
            · rw [setProc_proc_of_ne _ _ _ _ hic]
          have hsame : ((m.setProc c fun q => { q with parent := m.initproc }).proc q).level =
              (m.proc q).level ∧
              ((m.setProc c fun q => { q with parent := m.initproc }).proc q).alreadyEnqueued =
              (m.proc q).alreadyEnqueued := by
            by_cases hqc : q = c
            · subst hqc; simp
            · simp [hqc]
          simpa only [CanLeave, LinkedIn, hnext, hsame.1, hsame.2, setProc_schedulerLocked,
            setProc_levelQueue] using hq
        simp only at hc
        split at hc
        · exact (hm.trans hm').trans (hm'.inv.wakeup1 hc)
        · cases hc; exact hm.trans hm'
      · cases hc; exact hm
    have hw := h₁.trans h₂
    exact hw.inv.leave (hw.cpuProc.trans hcpu) (hw.canLeave p hcpu hleave)
      (fun _ => by exact ⟨rfl, rfl, rfl, rfl⟩) (fun _ => by simp) hrun

theorem wait (h : DispatchInv k) (hcpu : k.cpuProc = some p)
    (hleave : Leaves k p .wait → CanLeave k p) (hrun : Mlfq.wait k p = .ok k') :
    DispatchInv k' := by
  rw [Mlfq.wait] at hrun
  split at hrun
  · rename_i c hc
    cases hrun
    have hz : (k.proc c).state = .ZOMBIE := by
      have := List.find?_some hc
      simp only [decide_eq_true_eq] at this
      exact this.2
    refine h.setProc (by simp [hz]) (by simp [hz]) (fun _ => by rfl) fun i hi => ?_
    have := h.np i c hi
    rw [hz] at this
    cases this
  · rename_i hnone
    split at hrun
    · cases hrun; exact h
    · rename_i hgo
      simp only [not_or, not_forall, not_not, Bool.not_eq_true] at hgo
      refine h.leave hcpu (hleave ⟨fun i hi hz => ?_, hgo.1, hgo.2⟩)
        (fun _ => by exact ⟨rfl, rfl, rfl, rfl⟩) (fun _ => by simp) hrun
      have := List.find?_eq_none.mp hnone i (List.mem_finRange i)
      simp [hi, hz] at this

theorem tick {user : Bool} (h : DispatchInv k) (hrun : Mlfq.tick k user = .ok k') :
    DispatchInv k' := by
  rw [Mlfq.tick] at hrun
  simp only [bind_eq_ok] at hrun
  obtain ⟨k₁, hk₁, hrun⟩ := hrun
  have h₀ : DispatchInv { k with globalTick := k.globalTick + 1 } :=
    h.of_proc_eq rfl rfl ⟨rfl, rfl, rfl, fun _ => rfl⟩ h.np h.npInj
  have h₁ := (h₀.wakeup1 hk₁).inv
  split at hrun
  · cases hrun; exact h₁
  · rename_i p hcpu
    split at hrun
    · have h₂ : DispatchInv
          (k₁.setProc p fun q => { q with timeAllotment := q.timeAllotment + 1 }) :=
        h₁.setProc_inert p fun _ => ⟨rfl, rfl, rfl⟩
      split at hrun
      · cases hrun; exact h₂
      · exact h₂.yield hcpu hrun
    · cases hrun; exact h₁

/-- What `scheduler()` picks is `RUNNABLE`. -/
theorem pick (h : DispatchInv k) (hcpu : k.cpuProc = none) {r : Option Slot}
    (hrun : Mlfq.pick k = .ok (r, k')) :
    DispatchInv k' ∧ k'.cpuProc = none ∧ (k.schedulerLocked = true → r = k.schedP) ∧
      (∀ i, (k'.proc i).state = (k.proc i).state) ∧
      ∀ p, r = some p → (k'.proc p).state = .RUNNABLE := by
  rcases pick_effect hrun with ⟨rfl, hr, hl⟩ | ⟨hfree, hsame, hcov⟩
  · exact ⟨h, hcpu, fun _ => hr, fun _ => rfl, fun p hp => h.kept hcpu hl p (hr ▸ hp)⟩
  · obtain ⟨S, hS, hall⟩ := h.covers
    refine ⟨h.congr (.of_links hsame) fun S hS => ⟨S, (hcov S hS).1, fun _ => .inl⟩,
      hsame.cpuProc.trans hcpu, fun hl => ?_, hsame.state_eq, fun p hp => ?_⟩
    · obtain ⟨x, hx, _⟩ := h.held hl
      exact absurd ⟨by simp [hx], hl⟩ hfree
    · rw [hsame.state_eq]
      refine (hall p ((hcov S hS).2 p hp)).resolve_right fun hp' => ?_
      rw [hcpu] at hp'
      cases hp'

theorem schedule (h : DispatchInv k) (hrun : Mlfq.schedule k = .ok k') : DispatchInv k' := by
  have hlock := h.toLockInv.schedule hrun
  rw [Mlfq.schedule] at hrun
  split at hrun
  · cases hrun
  · rename_i hcpu
    rw [Option.isSome_iff_ne_none, not_not] at hcpu
    simp only [bind_eq_ok, Prod.exists] at hrun
    obtain ⟨r, k₁, hpick, hrun⟩ := hrun
    obtain ⟨h₁, hcpu₁, hkeep, _, hr⟩ := h.pick hcpu hpick
    cases r with
    | none =>
      cases hrun
      refine ⟨hlock, h₁.running, h₁.linked, fun _ _ x hx => ?_, h₁.np, h₁.npInj⟩
      cases hx
    | some p =>
      have hp := hr p rfl
      simp only [hp, reduceCtorEq, if_false] at hrun
      cases hrun
      have hkeep' : ∀ l x, LinkedIn k₁ l x → (k₁.proc x).state = .RUNNABLE := by
        intro l x hx
        refine (h₁.linked l x hx).resolve_right fun hx => ?_
        rw [hcpu₁] at hx
        cases hx
      refine ⟨hlock, fun q hq => ?_, fun l x hx => ?_, fun hc => ?_, fun i c hc => ?_, h₁.npInj⟩
      · simp only [setProc_cpuProc, Option.some.injEq] at hq
        subst hq
        simp
      · by_cases hxp : x = p
        · exact .inr (by simp [hxp])
        · refine .inl ?_
          have hS := (Covers.linked { k₁ with cpuProc := some p, schedP := some p }).setProc_keep
            p (f := fun q => { q with state := .RUNNING, chan := none }) fun _ => rfl
          obtain ⟨l', hx'⟩ := hS.of_linked hx
          rw [setProc_proc_of_ne _ _ _ _ hxp]
          exact hkeep' l' x hx'
      · simp at hc
      · have hce := h₁.np i c hc
        have hcp : c ≠ p := by
          rintro rfl
          rw [hp] at hce
          cases hce
        rw [setProc_proc_of_ne _ _ _ _ hcp]
        exact hce

theorem schedulerLock {pw : Int} (h : DispatchInv k) (hcpu : k.cpuProc = some p)
    (hleave : Leaves k p (.schedulerLock pw) → CanLeave k p)
    (hrun : Mlfq.schedulerLock k p pw = .ok k') : DispatchInv k' := by
  have hlock := h.toLockInv.schedulerLock hcpu hrun
  rw [Mlfq.schedulerLock] at hrun
  split at hrun
  · cases hrun; exact h
  · rename_i hfree
    split at hrun
    · cases hrun
      have hS := (Covers.linked { k with globalTick := 0, schedulerLocked := true }).setProc_keep
        p (f := fun q => { q with lockScheduler := true }) fun _ => rfl
      have hstate : ∀ x, (({ k with globalTick := 0, schedulerLocked := true }.setProc p
          fun q => { q with lockScheduler := true }).proc x).state = (k.proc x).state := by
        intro x
        by_cases hxp : x = p
        · subst hxp; simp
        · simp [hxp]
      refine ⟨hlock, fun q hq => ?_, fun l x hx => ?_, fun hc => ?_, fun i c hc => ?_, h.npInj⟩
      · rw [hstate]; exact h.running q hq
      · obtain ⟨l', hx'⟩ := hS.of_linked hx
        rw [hstate]
        exact h.linked l' x hx'
      · simp [hcpu] at hc
      · rw [hstate]; exact h.np i c hc
    · rename_i hpw
      exact h.exit hcpu (hleave ⟨by simpa using hfree, hpw⟩) hrun

theorem schedulerUnlock {pw : Int} (h : DispatchInv k) (hcpu : k.cpuProc = some p)
    (hleave : Leaves k p (.schedulerUnlock pw) → CanLeave k p)
    (hrun : Mlfq.schedulerUnlock k p pw = .ok k') : DispatchInv k' := by
  rw [Mlfq.schedulerUnlock] at hrun
  split at hrun
  · cases hrun; exact h
  · rename_i hl
    split at hrun
    · exact h.unlockHolder hrun
    · rename_i hpw
      exact h.exit hcpu (hleave ⟨by simpa using hl, hpw⟩) hrun

/-- Every step in which whoever leaves can leave keeps the invariant. -/
theorem step {e : Step} (h : DispatchInv k) (he : LeavesCleanly k e)
    (hrun : Mlfq.step k e = .ok k') : DispatchInv k' := by
  have hby : ∀ {f : Slot → Except Stop Kernel}, byProc k f = .ok k' →
      (∀ p, k.cpuProc = some p → f p = .ok k' → DispatchInv k') → DispatchInv k' := by
    intro f hf hp
    rw [byProc] at hf
    split at hf
    · cases hf
    · exact hp _ ‹_› hf
  cases e with
  | forkAlloc ok => exact hby hrun fun p _ hp => by cases hp; exact h.forkAlloc p ok
  | forkFinish ok => exact hby hrun fun p _ hp => h.forkFinish hp
  | exit => exact hby hrun fun p hcpu hp => h.exit hcpu (he p hcpu trivial) hp
  | wait => exact hby hrun fun p hcpu hp => h.wait hcpu (he p hcpu) hp
  | sleep chan =>
    exact hby hrun fun p hcpu hp => h.leave hcpu (he p hcpu trivial)
      (fun _ => by exact ⟨rfl, rfl, rfl, rfl⟩) (fun _ => by simp) hp
  | wakeup chan => exact (h.wakeup1 hrun).inv
  | kill pid => exact hby hrun fun p _ hp => h.kill hp
  | yield => exact hby hrun fun p hcpu hp => h.yield hcpu hp
  | setPriority pid pr =>
    exact hby hrun fun p _ hp => by cases hp; exact h.setPriority pid pr
  | schedulerLock pw => exact hby hrun fun p hcpu hp => h.schedulerLock hcpu (he p hcpu) hp
  | schedulerUnlock pw => exact hby hrun fun p hcpu hp => h.schedulerUnlock hcpu (he p hcpu) hp
  | tick user => exact h.tick hrun
  | schedule => exact h.schedule hrun

theorem of_init (h : Init k) : DispatchInv k := by
  have hboot : DispatchInv boot := by
    refine ⟨⟨by simp [boot], by simp [boot], by simp [boot]⟩, by simp [boot], fun l x hx => ?_,
      by simp [boot], by simp [boot], by simp [boot]⟩
    cases hx
  rw [Init, userinit] at h
  rcases hboot.allocproc with hrun | ⟨c, k₁, hrun, h₁, hc, hnp⟩
  · rw [hrun] at h; cases h
  · rw [hrun] at h
    have h₂ : DispatchInv { k₁ with initproc := some c } :=
      h₁.of_proc_eq rfl rfl ⟨rfl, rfl, rfl, fun _ => rfl⟩ h₁.np h₁.npInj
    exact (h₂.makeRunnable (by simp [hc]) (by simp [hc]) hnp h).inv

end DispatchInv

/-! ### Every run -/

/-- Only `RUNNABLE` processes are dispatched from `k`: the process that `scheduler()` switches
    to was `RUNNABLE`, a `SLEEPING` process is not resumed, and neither is a `ZOMBIE`, which
    would come back from the `sched()` of `exit()` and panic. -/
structure DispatchesRunnable (k : Kernel) : Prop where
  runnable : ∀ p k', k.cpuProc = none → pick k = .ok (some p, k') → (k.proc p).state = .RUNNABLE
  asleep : ∀ k', step k .schedule = .ok k' → ∀ p, (k.proc p).state = .SLEEPING →
    (k'.proc p).state = .SLEEPING
  noZombie : step k .schedule ≠ .error (.panic "zombie exit")

/-- The choice of the process can only fail by not ending. -/
theorem pick_ne_panic (k : Kernel) (msg : String) : pick k ≠ .error (.panic msg) := by
  have hds : ∀ k l p, dequeueSpecific k l p ≠ .error (.panic msg) := by
    intro k l p h
    rw [dequeueSpecific] at h
    split at h
    · cases h
    · split at h <;> cases h
  intro h
  rw [pick] at h
  split at h
  · cases h
  · split at h
    · cases h
    · split at h
      · cases h
      · split at h
        · cases h
        · split at h
          · cases h
          · rename_i k₂ _ _ _ _ _ p _
            cases hd : dequeueSpecific k₂ 2 p with
            | error e =>
              rw [hd, error_bind, Except.error.injEq] at h
              exact hds _ _ _ (h ▸ hd)
            | ok k' => rw [hd] at h; cases h

theorem DispatchInv.dispatchesRunnable {k : Kernel} (h : DispatchInv k) : DispatchesRunnable k := by
  refine ⟨fun p k' hcpu hpick => ?_, fun k' hrun p hp => ?_, fun hrun => ?_⟩
  · obtain ⟨_, _, _, hstate, hr⟩ := h.pick hcpu hpick
    rw [← hstate p]
    exact hr p rfl
  · rw [Mlfq.step, Mlfq.schedule] at hrun
    split at hrun
    · cases hrun
    · rename_i hcpu
      rw [Option.isSome_iff_ne_none, not_not] at hcpu
      simp only [bind_eq_ok, Prod.exists] at hrun
      obtain ⟨r, k₁, hpick, hrun⟩ := hrun
      obtain ⟨_, _, _, hstate, hr⟩ := h.pick hcpu hpick
      cases r with
      | none => cases hrun; exact (hstate p).trans hp
      | some q =>
        have hpq : p ≠ q := by
          rintro rfl
          have := hr p rfl
          rw [hstate p, hp] at this
          cases this
        simp only at hrun
        split at hrun
        · cases hrun
        · cases hrun
          rw [setProc_proc_of_ne _ _ _ _ hpq]
          exact (hstate p).trans hp
  · rw [Mlfq.step, Mlfq.schedule] at hrun
    split at hrun
    · cases hrun
    · rename_i hcpu
      rw [Option.isSome_iff_ne_none, not_not] at hcpu
      cases hpick : Mlfq.pick k with
      | error e =>
        -- `pick` itself only fails by not ending
        rw [hpick, error_bind, Except.error.injEq] at hrun
        subst hrun
        exact pick_ne_panic k _ hpick
      | ok r =>
        obtain ⟨r, k₁⟩ := r
        obtain ⟨_, _, _, _, hr⟩ := h.pick hcpu hpick
        rw [hpick, ok_bind] at hrun
        cases r with
        | none => cases hrun
        | some q =>
          simp only [hr q rfl, reduceCtorEq, if_false] at hrun

/-- **Only `RUNNABLE` processes are dispatched**, in every state of every run in which whoever
    gives up the CPU for good can leave. -/
theorem dispatched_are_runnable {k : Kernel} (h : Reachable Init (Steps step LeavesCleanly) k) :
    DispatchesRunnable k := by
  have hinv : DispatchInv k := by
    refine h.invariant (fun _ => DispatchInv.of_init) ?_
    rintro k k' hk ⟨e, he, hstep⟩
    exact hk.step he hstep
  exact hinv.dispatchesRunnable

/-- The first process takes the scheduler lock, is preempted once, and sleeps: it was in
    `level_queue[0]`, so that it leaves the lock and the queue behind it, and is not dispatched. -/
theorem dispatched_are_runnable_sleep :
    ∃ k, DispatchesRunnable k ∧ (k.proc 0).state = .SLEEPING ∧ k.schedulerLocked = false := by
  obtain ⟨k₀, h₀⟩ : ∃ k, userinit boot = .ok k := ⟨_, rfl⟩
  obtain ⟨k₁, h₁⟩ : ∃ k, exec step k₀
      [.schedule, .schedulerLock schedPassword, .tick true, .schedule] = .ok k := by
    cases h₀; exact ⟨_, rfl⟩
  obtain ⟨k₂, h₂⟩ : ∃ k, step k₁ (.sleep (.other 0)) = .ok k := by
    cases h₀; cases h₁; exact ⟨_, rfl⟩
  have hreach : Reachable Init (Steps step LeavesCleanly) k₁ := by
    refine reachable_exec (.start h₀) ?_ h₁
    intro _ e he
    simp only [List.mem_cons, List.not_mem_nil, or_false] at he
    rcases he with rfl | rfl | rfl | rfl
    · exact fun _ _ hl => hl.elim
    · exact fun _ _ hl => absurd rfl hl.2
    · exact fun _ _ hl => hl.elim
    · exact fun _ _ hl => hl.elim
  refine ⟨k₂, dispatched_are_runnable (hreach.step ⟨_, fun p hp _ => ?_, h₂⟩), ?_, ?_⟩
  · -- the queue of level 0 is exactly this process
    cases h₀; cases h₁
    cases hp
    refine ⟨rfl, by decide, .here 0, fun hx => ?_, fun l hl hx => ?_⟩
    · cases hx
    · obtain ⟨m, rfl⟩ := Nat.exists_eq_succ_of_ne_zero hl
      have hnone : Linked _ (none : Option Slot) _ := hx
      cases hnone
  · cases h₀; cases h₁; cases h₂; rfl
  · cases h₀; cases h₁; cases h₂; rfl

/-- The first process takes the scheduler lock and sleeps before a tick has put it into a queue:
    `schedulerUnlock` does not find it, the scheduler stays locked, and the sleeping process is
    dispatched again. -/
theorem sleeper_dispatched :
    ∃ k, Reachable Init (Steps step fun _ _ => True) k ∧ ¬ DispatchesRunnable k := by
  obtain ⟨k₀, h₀⟩ : ∃ k, userinit boot = .ok k := ⟨_, rfl⟩
  obtain ⟨k₁, h₁⟩ : ∃ k, exec step k₀
      [.schedule, .schedulerLock schedPassword, .sleep (.other 0)] = .ok k := by
    cases h₀; exact ⟨_, rfl⟩
  refine ⟨k₁, reachable_exec (.start h₀) (fun _ _ _ => trivial) h₁, fun h => ?_⟩
  obtain ⟨k₂, h₂⟩ : ∃ k', pick k₁ = .ok (some 0, k') := by
    cases h₀; cases h₁; exact ⟨_, rfl⟩
  have hcpu : k₁.cpuProc = none := by cases h₀; cases h₁; rfl
  have hstate : (k₁.proc 0).state = .SLEEPING := by cases h₀; cases h₁; rfl
  have := h.runnable 0 k₂ hcpu h₂
  rw [hstate] at this
  cases this

end Xv6.Mlfq
