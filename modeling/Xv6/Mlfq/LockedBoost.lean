import Xv6.Mlfq.Lock

namespace Xv6.Mlfq

open Xv6.Lib

/-!
# MLFQ scheduler — boosting while the scheduler is locked

When the holder of the scheduler lock comes back `RUNNABLE` and the boost is due, the boost first
moves every queue to `level_queue[0]` and then calls `schedulerUnlock`, which searches the
holder in the queues and pushes it at the head of `level_queue[0]`, where it is linked already.

* `BoostIntact` — what the boost should leave behind: one finite queue with the holder first;
* `boost_not_intact` — it never does: the queue becomes cyclic, or the lock is kept, or the
  search for the holder does not end;
* `locked_boost_breaks_queues` — the same for every reachable state;
* `holder_boosted` — a run that gets there: a process that takes the lock and spins for 100
  ticks.
-/

/-- The second half of a scheduler round up to the boost. -/
def beforeBoost (k : Kernel) (p : Slot) : Except Stop Kernel := do
  let k ← giveUpLock { k with cpuProc := none } p
  let k ← changeLevel k p
  let k ← requeue k p
  .ok (forgetP k)

theorem schedReturn_eq (k : Kernel) (p : Slot) :
    schedReturn k p = beforeBoost k p >>= boostIfDue := by
  simp only [schedReturn, beforeBoost]
  cases giveUpLock { k with cpuProc := none } p with
  | error e => rfl
  | ok k₁ =>
    simp only [ok_bind]
    cases changeLevel k₁ p with
    | error e => rfl
    | ok k₂ =>
      simp only [ok_bind]
      cases requeue k₂ p with
      | error e => rfl
      | ok k₃ => rfl

/-- The running process `p` has come back to `scheduler()` in state `RUNNABLE`: it called
    `yield()`, or the timer interrupt did. -/
inductive ComesBack : Kernel → Slot → Prop
  | yield {k : Kernel} {p : Slot} :
      Reachable Init (Steps step fun _ _ => True) k → k.cpuProc = some p →
      ComesBack (k.setProc p fun q => { q with state := .RUNNABLE }) p
  | tick {k k₁ : Kernel} {p : Slot} {user : Bool} :
      Reachable Init (Steps step fun _ _ => True) k →
      wakeup1 { k with globalTick := k.globalTick + 1 } (some .ticks) = .ok k₁ →
      k₁.cpuProc = some p → (k₁.proc p).state = .RUNNING → ¬ ((k₁.proc p).killed ∧ user) →
      ComesBack ((k₁.setProc p fun q => { q with timeAllotment := q.timeAllotment + 1 }).setProc p
        fun q => { q with state := .RUNNABLE }) p

/-- The boost after the return of the lock holder `p` keeps the queues intact: it gives up the
    lock, `level_queue[0]` is a finite list with `p` first that contains exactly the processes
    that were queued before, the other two are empty, and the queue operations go on working. -/
def BoostIntact (k : Kernel) (p : Slot) : Prop :=
  ∃ b k' xs, beforeBoost k p = .ok b ∧ schedReturn k p = .ok k' ∧ k'.schedulerLocked = false ∧
    Chain k'.next (k'.levelQueue 0) xs ∧ xs.head? = some p ∧ xs.Nodup ∧
    (∀ x, x ∈ xs ↔ ∃ l < 3, LinkedIn b l x) ∧
    k'.levelQueue 1 = none ∧ k'.levelQueue 2 = none ∧
    (∀ x, (k'.proc x).alreadyEnqueued = false →
      ∃ k'', enqueue k' x 0 = .ok k'' ∧ Chain k''.next (k''.levelQueue 0) (xs ++ [x])) ∧
    Chain (dequeue k' 0).2.next ((dequeue k' 0).2.levelQueue 0) xs.tail

/-! ### The boost -/

/-- What `schedulerUnlock` pushes it pushes in front of itself. -/
theorem unlockFound_cyclic {k k' : Kernel} {p : Slot} (h : unlockFound k p = .ok k')
    (hs : (k.proc p).state = .RUNNABLE) (hp : LinkedIn k 0 p) (xs : List Slot) :
    ¬ Chain k'.next (k'.levelQueue 0) xs := by
  rw [unlockFound] at h
  simp only [bind_eq_ok] at h
  obtain ⟨m, hm, h⟩ := h
  cases h
  obtain ⟨hnext, hlink⟩ := clearLock_linkedIn k p
  have hstate : ((clearLock k p).proc p).state = .RUNNABLE := by
    rw [(clearLock_effect k p).state, hs]
  rw [dropNotRunnable, if_neg (by rw [hstate]; simp)] at hm
  cases hm
  rw [pushHead, if_pos (.inl hstate)]
  have hp' : LinkedIn (clearLock k p) 0 p := (hlink 0 p).mpr hp
  -- the way from the old head to the holder does not use the new link
  obtain ⟨us, hseg, hnd⟩ := Linked.first hp'
  have hpus : p ∉ us := fun hm => (List.nodup_append.mp hnd).2.2 p hm p (by simp) rfl
  refine not_chain_of_loop (a := p) ?_ xs
  generalize hk' : (((clearLock k p).setProc p fun q =>
    { q with next := (clearLock k p).levelQueue 0, level := 0, timeAllotment := 0,
             timeQuantum := 4, alreadyEnqueued := true }).setQueue 0 (some p)) = k'
  have hhead : k'.next p = (clearLock k p).levelQueue 0 := by
    rw [← hk', Kernel.next, setQueue_proc, setProc_proc_self]
  have hseg' : Seg k'.next (k'.next p) us (some p) := by
    rw [hhead]
    refine hseg.congr fun a ha => ?_
    have hap : a ≠ p := fun hap => hpus (hap ▸ ha)
    rw [← hk', Kernel.next, setQueue_proc, setProc_proc_of_ne _ _ _ _ hap]
    rfl
  exact hseg'.linked_end (.here p)

/-- A boost that gives up the lock leaves a cyclic `level_queue[0]`. -/
theorem boost_cyclic {b k' : Kernel} {p : Slot} (h : boost b = .ok k') (hinv : LockInv b)
    (hlock : b.schedulerLocked = true) (hp : b.schedP = some p)
    (hs : (b.proc p).state = .RUNNABLE) (hfree : k'.schedulerLocked = false) (xs : List Slot) :
    ¬ Chain k'.next (k'.levelQueue 0) xs := by
  rw [boost] at h
  simp only [bind_eq_ok] at h
  obtain ⟨k₁, hk₁, k₂, hk₂, h⟩ := h
  cases h
  obtain ⟨hsame, _, hq1, hq2⟩ := boostQueues_effect hk₁
  have hinv₁ : LockInv k₁ := hinv.congr (.of_roles hsame)
  have hlock₁ : k₁.schedulerLocked = true := hsame.schedulerLocked.trans hlock
  rw [unlockBoosted, if_pos hlock₁] at hk₂
  rcases unlockHolder_effect hk₂ with ⟨rfl, _⟩ | ⟨x, hx, hk₂⟩
  · -- the holder was not found and the scheduler is still locked
    simp only at hfree
    rw [hlock₁] at hfree
    cases hfree
  · have hxp : x = p := by
      have := hinv₁.found hx
      rw [hsame.schedP, hp, Option.some.injEq] at this
      exact this.symm
    subst hxp
    obtain ⟨⟨l, hl, hlink⟩, _⟩ := findHolder_some hx
    have hl0 : l = 0 := by
      simp only [List.mem_cons, List.not_mem_nil, or_false] at hl
      rcases hl with rfl | rfl | rfl
      · rfl
      · rw [LinkedIn, hq1] at hlink; cases hlink
      · rw [LinkedIn, hq2] at hlink; cases hlink
    subst hl0
    exact unlockFound_cyclic hk₂ (by rw [hsame.state, hs]) hlink xs

/-- The lock holder that has come back is still the holder when the boost starts. -/
theorem beforeBoost_holder {k b : Kernel} {p : Slot} (h : beforeBoost k p = .ok b)
    (hinv : LockInv k) (hlock : k.schedulerLocked = true) (hp : k.schedP = some p)
    (hs : (k.proc p).state = .RUNNABLE) :
    LockInv b ∧ b.schedulerLocked = true ∧ b.schedP = some p ∧ (b.proc p).state = .RUNNABLE ∧
      b.globalTick = k.globalTick := by
  simp only [beforeBoost, bind_eq_ok] at h
  obtain ⟨k₁, hk₁, k₂, hk₂, k₃, hk₃, h⟩ := h
  cases h
  rw [giveUpLock, if_neg (by simp [hs])] at hk₁
  cases hk₁
  have hsame := (changeLevel_roles hk₂).trans (requeue_roles hk₃)
  have hlock₃ : k₃.schedulerLocked = true := hsame.schedulerLocked.trans hlock
  rw [forgetP, if_pos hlock₃]
  exact ⟨hinv.offCpu.congr (.of_roles hsame), hlock₃, hsame.schedP.trans hp,
    (hsame.state p).trans hs, hsame.globalTick⟩

/-- A boost under the lock never leaves the queues intact. -/
theorem boost_not_intact {k : Kernel} {p : Slot} (hinv : LockInv k)
    (hlock : k.schedulerLocked = true) (hp : k.schedP = some p)
    (hs : (k.proc p).state = .RUNNABLE) (hdue : k.globalTick ≥ 100) : ¬ BoostIntact k p := by
  rintro ⟨b, k', xs, hb, hrun, hfree, hchain, _⟩
  obtain ⟨hinv', hlock', hp', hs', htick⟩ := beforeBoost_holder hb hinv hlock hp hs
  rw [schedReturn_eq, hb, ok_bind, boostIfDue, if_pos (by rw [htick]; exact hdue)] at hrun
  exact boost_cyclic hrun hinv' hlock' hp' hs' hfree xs hchain

theorem ComesBack.holder {k : Kernel} {p : Slot} (h : ComesBack k p) :
    LockInv k ∧ k.schedP = some p ∧ (k.proc p).state = .RUNNABLE := by
  cases h with
  | yield hreach hcpu =>
    have hinv := lockInv_of_reachable hreach
    exact ⟨hinv.congr (.setProc _ p fun _ => by rfl), hinv.onCpu p hcpu, by simp⟩
  | @tick k k₁ _ _ hreach hwake hcpu _ _ =>
    have hinv := lockInv_of_reachable hreach
    have hinv' : LockInv { k with globalTick := k.globalTick + 1 } :=
      ⟨hinv.onCpu, hinv.holder, hinv.held⟩
    have hinv₁ := hinv'.congr (.wakeup1 hwake)
    refine ⟨(hinv₁.congr (.setProc _ p ?_)).congr (.setProc _ p ?_), hinv₁.onCpu p hcpu, by simp⟩
    · intro q; rfl
    · intro q; rfl

/-- **Boosting under the scheduler lock breaks the queues**, in every reachable state in which
    the holder comes back `RUNNABLE` and the boost is due. -/
theorem locked_boost_breaks_queues {k : Kernel} {p : Slot} (h : ComesBack k p)
    (hlock : k.schedulerLocked = true) (hdue : k.globalTick ≥ 100) : ¬ BoostIntact k p := by
  obtain ⟨hinv, hp, hs⟩ := h.holder
  exact boost_not_intact hinv hlock hp hs hdue

/-! ### A run that gets there -/

/-- Nobody wakes up when nobody sleeps. -/
theorem wakeup1_eq_self {k : Kernel} (h : ∀ i, (k.proc i).state ≠ .SLEEPING)
    (chan : Option Chan) : wakeup1 k chan = .ok k := by
  have hfold : ∀ xs : List Slot, xs.foldlM (wakeOne chan) k = .ok k := by
    intro xs
    induction xs with
    | nil => rfl
    | cons x xs ih =>
      rw [List.foldlM_cons, wakeOne, if_neg (by simp [h x])]
      exact ih
  exact hfold _

/-- The process `p` holds the scheduler lock and nobody else is queued: `n` ticks after the last
    reset, in state `st`, with `cpu` on the CPU. -/
structure SpinsLocked (k : Kernel) (p : Slot) (n : Nat) (st : ProcState) (cpu : Option Slot) :
    Prop where
  globalTick : k.globalTick = n
  schedulerLocked : k.schedulerLocked = true
  cpuProc : k.cpuProc = cpu
  schedP : k.schedP = some p
  state : (k.proc p).state = st
  killed : (k.proc p).killed = false
  others : ∀ i, i ≠ p → (k.proc i).state ≠ .SLEEPING
  next : (k.proc p).next = none
  queue : ∀ l, k.levelQueue l =
    if (k.proc p).alreadyEnqueued = true ∧ l = (k.proc p).level then some p else none

namespace SpinsLocked

variable {k : Kernel} {p : Slot} {n : Nat} {st : ProcState} {cpu : Option Slot}

theorem setProc (h : SpinsLocked k p n st cpu) (f : Proc → Proc)
    (hf : ∀ q, (f q).killed = q.killed ∧ (f q).next = q.next ∧ (f q).level = q.level ∧
      (f q).alreadyEnqueued = q.alreadyEnqueued) :
    SpinsLocked (k.setProc p f) p n (f (k.proc p)).state cpu := by
  refine ⟨h.globalTick, h.schedulerLocked, h.cpuProc, h.schedP, by simp, ?_, fun i hi => ?_, ?_,
    fun l => ?_⟩
  · rw [setProc_proc_self, (hf _).1, h.killed]
  · rw [setProc_proc_of_ne _ _ _ _ hi]; exact h.others i hi
  · rw [setProc_proc_self, (hf _).2.1, h.next]
  · rw [setProc_proc_self, (hf _).2.2.1, (hf _).2.2.2]; exact h.queue l

theorem changeLevel (h : SpinsLocked k p n st cpu) :
    ∃ k', Mlfq.changeLevel k p = .ok k' ∧ SpinsLocked k' p n st cpu := by
  rw [Mlfq.changeLevel]
  split
  · -- the process is taken out of its queue, if it is there
    obtain ⟨k₁, hk₁, h₁, hout⟩ : ∃ k₁, leaveLevel k p = .ok k₁ ∧ SpinsLocked k₁ p n st cpu ∧
        (k₁.proc p).alreadyEnqueued = false := by
      rw [leaveLevel, if_pos h.schedulerLocked, dequeueSpecific]
      by_cases hflag : (k.proc p).alreadyEnqueued = false
      · exact ⟨k, by rw [if_pos hflag], h, hflag⟩
      · have hq := h.queue (k.proc p).level
        rw [if_pos ⟨by simpa using hflag, rfl⟩] at hq
        have hw : walkPrev k.next p NPROC none (k.levelQueue (k.proc p).level) =
            some (some none) := by
          rw [walkPrev_eq_of_seg (seg_nil_iff.mpr hq) (by simp) (by decide)]
          rfl
        rw [if_neg hflag, hw]
        refine ⟨_, rfl, ⟨h.globalTick, h.schedulerLocked, h.cpuProc, h.schedP, ?_, ?_, fun i hi => ?_,
          ?_, fun l => ?_⟩, ?_⟩
        · simp [h.state]
        · simp [h.killed]
        · simpa [hi] using h.others i hi
        · simp
        · by_cases hl : l = (k.proc p).level
          · subst hl; simp [h.next]
          · simp [hl, h.queue l]
        · simp
    rw [hk₁, ok_bind]
    refine ⟨_, rfl, h₁.globalTick, h₁.schedulerLocked, h₁.cpuProc, h₁.schedP, ?_, ?_, fun i hi => ?_,
      ?_, fun l => ?_⟩
    · simp [h₁.state]
    · simp [h₁.killed]
    · simpa [hi] using h₁.others i hi
    · simp [h₁.next]
    · simp [h₁.queue l, hout]
  · split
    · refine ⟨_, rfl, ?_⟩
      have := h.setProc (fun q => { q with
        priority := if q.priority - 1 ≥ 0 then q.priority - 1 else 0, timeAllotment := 0 })
        fun _ => ⟨rfl, rfl, rfl, rfl⟩
      rwa [h.state] at this
    · exact ⟨k, rfl, h⟩

theorem requeue (h : SpinsLocked k p n .RUNNABLE cpu) :
    ∃ k', Mlfq.requeue k p = .ok k' ∧ SpinsLocked k' p n .RUNNABLE cpu := by
  rw [Mlfq.requeue, if_pos h.state, enqueue]
  by_cases hflag : (k.proc p).alreadyEnqueued = true
  · exact ⟨k, by rw [if_pos hflag], h⟩
  · have hq := h.queue (k.proc p).level
    rw [if_neg (by simp [hflag])] at hq
    rw [if_neg hflag, hq]
    refine ⟨_, rfl, h.globalTick, h.schedulerLocked, h.cpuProc, h.schedP, ?_, ?_, fun i hi => ?_,
      ?_, fun l => ?_⟩
    · simp [h.state]
    · simp [h.killed]
    · simpa [hi] using h.others i hi
    · simp
    · by_cases hl : l = (k.proc p).level
      · subst hl; simp
      · simp [hl, h.queue l]

/-- The timer interrupt finds nobody to wake. -/
theorem wakeup (h : SpinsLocked k p n .RUNNING cpu) :
    wakeup1 { k with globalTick := k.globalTick + 1 } (some .ticks) =
      .ok { k with globalTick := k.globalTick + 1 } := by
  refine wakeup1_eq_self (fun i => ?_) _
  by_cases hi : i = p
  · subst hi
    show (k.proc i).state ≠ .SLEEPING
    rw [h.state]; decide
  · exact h.others i hi

/-- The holder comes back to the scheduler before the boost is due. -/
theorem yield (h : SpinsLocked k p n .RUNNING (some p)) (hn : n < 100) :
    ∃ k', Mlfq.yield k p = .ok k' ∧ SpinsLocked k' p n .RUNNABLE none := by
  have h₁ := h.setProc (fun q => { q with state := .RUNNABLE }) fun _ => ⟨rfl, rfl, rfl, rfl⟩
  have h₂ : SpinsLocked { k.setProc p fun q => { q with state := .RUNNABLE } with
      cpuProc := none } p n .RUNNABLE none :=
    ⟨h₁.globalTick, h₁.schedulerLocked, rfl, h₁.schedP, h₁.state, h₁.killed, h₁.others, h₁.next,
      h₁.queue⟩
  obtain ⟨k₃, hk₃, h₃⟩ := h₂.changeLevel
  obtain ⟨k₄, hk₄, h₄⟩ := h₃.requeue
  refine ⟨k₄, schedReturn_eq_ok.mpr ⟨_, k₃, k₄, ?_, hk₃, hk₄, ?_⟩, h₄⟩
  · rw [giveUpLock, if_neg (by simp)]
  · rw [forgetP, if_pos h₄.schedulerLocked, boostIfDue, if_neg (by rw [h₄.globalTick]; omega)]

theorem tick (h : SpinsLocked k p n .RUNNING (some p)) (hn : n + 1 < 100) :
    ∃ k', Mlfq.tick k true = .ok k' ∧ SpinsLocked k' p (n + 1) .RUNNABLE none := by
  have h₁ : SpinsLocked { k with globalTick := k.globalTick + 1 } p (n + 1) .RUNNING (some p) :=
    ⟨by simp [h.globalTick], h.schedulerLocked, h.cpuProc, h.schedP, h.state, h.killed, h.others,
      h.next, h.queue⟩
  have h₂ := h₁.setProc (fun q => { q with timeAllotment := q.timeAllotment + 1 })
    fun _ => ⟨rfl, rfl, rfl, rfl⟩
  obtain ⟨k', hk', h'⟩ := SpinsLocked.yield (h₁.state ▸ h₂) hn
  refine ⟨k', ?_, h'⟩
  rw [Mlfq.tick, h.wakeup, ok_bind]
  split
  · rename_i hcpu
    rw [h₁.cpuProc] at hcpu
    cases hcpu
  · rename_i q hcpu
    rw [h₁.cpuProc, Option.some.injEq] at hcpu
    subst hcpu
    rw [if_pos h₁.state, if_neg (by rw [h₂.killed]; simp), hk']

theorem schedule (h : SpinsLocked k p n .RUNNABLE none) :
    ∃ k', Mlfq.schedule k = .ok k' ∧ SpinsLocked k' p n .RUNNING (some p) := by
  have hpick : pick k = .ok (some p, k) := by
    rw [pick, if_pos ⟨by simp [h.schedP], h.schedulerLocked⟩, h.schedP]
  have h₁ : SpinsLocked { k with cpuProc := some p, schedP := some p } p n .RUNNABLE (some p) :=
    ⟨h.globalTick, h.schedulerLocked, rfl, rfl, h.state, h.killed, h.others, h.next, h.queue⟩
  refine ⟨_, ?_, h₁.setProc (fun q => { q with state := .RUNNING, chan := none })
    fun _ => ⟨rfl, rfl, rfl, rfl⟩⟩
  rw [Mlfq.schedule, if_neg (by simp [h.cpuProc]), hpick, ok_bind]
  simp only [h.state, reduceCtorEq, if_false]

/-- One tick and one round of the scheduler: the holder runs again. -/
theorem spin (h : SpinsLocked k p n .RUNNING (some p)) (hn : n + 1 < 100) :
    ∃ k', exec step k [.tick true, .schedule] = .ok k' ∧
      SpinsLocked k' p (n + 1) .RUNNING (some p) := by
  obtain ⟨k₁, hk₁, h₁⟩ := h.tick hn
  obtain ⟨k₂, hk₂, h₂⟩ := h₁.schedule
  refine ⟨k₂, ?_, h₂⟩
  simp only [exec, step, hk₁, hk₂, Except.bind]

end SpinsLocked

/-- A process that takes the lock and spins is still on the CPU 99 ticks later. -/
theorem spins_99_ticks :
    ∃ k p, Reachable Init (Steps step fun _ _ => True) k ∧
      SpinsLocked k p 99 .RUNNING (some p) := by
  obtain ⟨k₀, h₀⟩ : ∃ k, userinit boot = .ok k := ⟨_, rfl⟩
  obtain ⟨k₁, h₁⟩ : ∃ k, exec step k₀ [.schedule, .schedulerLock schedPassword] = .ok k := by
    cases h₀; exact ⟨_, rfl⟩
  have hreach : Reachable Init (Steps step fun _ _ => True) k₁ :=
    reachable_exec (.start h₀) (fun _ _ _ => trivial) h₁
  have hspin : SpinsLocked k₁ 0 0 .RUNNING (some 0) := by
    cases h₀; cases h₁
    refine ⟨rfl, rfl, rfl, rfl, rfl, rfl, by decide, rfl, fun l => ?_⟩
    cases l with
    | zero => rfl
    | succ l => rfl
  have hrun : ∀ n, n < 100 → ∃ k, Reachable Init (Steps step fun _ _ => True) k ∧
      SpinsLocked k 0 n .RUNNING (some 0) := by
    intro n
    induction n with
    | zero => exact fun _ => ⟨k₁, hreach, hspin⟩
    | succ n ih =>
      intro hn
      obtain ⟨k, hk, hs⟩ := ih (by omega)
      obtain ⟨k', hk', hs'⟩ := hs.spin hn
      exact ⟨k', reachable_exec hk (fun _ _ _ => trivial) hk', hs'⟩
  obtain ⟨k, hk, hs⟩ := hrun 99 (by omega)
  exact ⟨k, 0, hk, hs⟩

/-- The next tick brings the holder back with the boost due. -/
theorem holder_comes_back :
    ∃ k p, ComesBack k p ∧ k.schedulerLocked = true ∧ k.globalTick ≥ 100 := by
  obtain ⟨k, p, hk, hs⟩ := spins_99_ticks
  have hback := @ComesBack.tick _ _ _ true hk hs.wakeup hs.cpuProc hs.state
    (by simp [hs.killed])
  exact ⟨_, p, hback, hs.schedulerLocked, by simp [hs.globalTick]⟩

/-- Such a boost happens, and breaks the queues. -/
theorem locked_boost_breaks_queues_spin :
    ∃ k p, ComesBack k p ∧ k.schedulerLocked = true ∧ k.globalTick ≥ 100 ∧ ¬ BoostIntact k p := by
  obtain ⟨k, p, hback, hlock, hdue⟩ := holder_comes_back
  exact ⟨k, p, hback, hlock, hdue, locked_boost_breaks_queues hback hlock hdue⟩

/-- The queues do not stay intact when the boost is due under the lock. -/
theorem locked_boost_not_always_intact :
    ¬ ∀ k p, ComesBack k p → k.schedulerLocked = true → k.globalTick ≥ 100 → BoostIntact k p := by
  intro h
  obtain ⟨k, p, hback, hlock, hdue⟩ := holder_comes_back
  obtain ⟨hinv, hp, hs⟩ := hback.holder
  exact boost_not_intact hinv hlock hp hs hdue (h k p hback hlock hdue)

end Xv6.Mlfq
