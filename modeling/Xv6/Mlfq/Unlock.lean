import Xv6.Mlfq.Charge
import Xv6.Mlfq.Tidy

namespace Xv6.Mlfq

open Xv6.Lib
open Tidy (CallFrame)

/-!
# MLFQ scheduler — `schedulerUnlock` by the holder of the lock

`schedulerUnlock` looks for the holder of the lock in the queues, where a running process only is
when it has been preempted under the lock, and unlinks it from the queue of its level.

* `running_of_reachable` — the process on the CPU is `RUNNING`;
* `Unlocks` — the call gives the lock up, and puts the caller in front of everybody else;
* `unlock_by_holder` — it does so exactly when the caller is in the queue of its level;
* `unlock_not_queued` — right after `schedulerLock` it does not.
-/

variable {k k' : Kernel} {p : Slot}

/-! ### The process on the CPU -/

/-- The process on the CPU is `RUNNING`, and nobody forks itself. -/
structure OnCpu (k : Kernel) : Prop where
  running : ∀ p, k.cpuProc = some p → (k.proc p).state = .RUNNING
  np : ∀ i, k.np i ≠ some i

theorem unlockHolder_off (h : unlockHolder k = .ok k') :
    k'.cpuProc = k.cpuProc ∧ k'.np = k.np ∧ ∀ i, (k'.proc i).state = (k.proc i).state := by
  rcases unlockHolder_effect h with ⟨rfl, _⟩ | ⟨x, _, hrun⟩
  · exact ⟨rfl, rfl, fun _ => rfl⟩
  · obtain ⟨hu, -⟩ := unlockFound_effect hrun
    exact ⟨hu.cpuProc, hu.np, hu.state⟩

/-- A process that comes back to `scheduler()` has left the CPU. -/
theorem schedReturn_off (h : schedReturn k p = .ok k') : k'.cpuProc = none ∧ k'.np = k.np := by
  obtain ⟨k₁, k₂, k₃, hk₁, hk₂, hk₃, hrun⟩ := schedReturn_eq_ok.mp h
  have h₁ : k₁.cpuProc = none ∧ k₁.np = k.np := by
    rw [giveUpLock] at hk₁
    split at hk₁
    · exact ⟨(unlockHolder_off hk₁).1, (unlockHolder_off hk₁).2.1⟩
    · cases hk₁; exact ⟨rfl, rfl⟩
  have h₂ := changeLevel_roles hk₂
  have h₃ := requeue_roles hk₃
  have hforget : (forgetP k₃).cpuProc = none ∧ (forgetP k₃).np = k.np := by
    have hcpu₃ : k₃.cpuProc = none := (h₃.cpuProc.trans h₂.cpuProc).trans h₁.1
    have hnp₃ : k₃.np = k.np := (h₃.np.trans h₂.np).trans h₁.2
    rw [forgetP]
    split
    · exact ⟨hcpu₃, hnp₃⟩
    · exact ⟨hcpu₃, hnp₃⟩
  rw [boostIfDue] at hrun
  split at hrun
  · rw [boost] at hrun
    simp only [bind_eq_ok] at hrun
    obtain ⟨k₄, hk₄, k₅, hk₅, hrun⟩ := hrun
    cases hrun
    have h₄ := (boostQueues_effect hk₄).1
    have h₅ : k₅.cpuProc = k₄.cpuProc ∧ k₅.np = k₄.np := by
      rw [unlockBoosted] at hk₅
      split at hk₅
      · exact ⟨(unlockHolder_off hk₅).1, (unlockHolder_off hk₅).2.1⟩
      · cases hk₅; exact ⟨rfl, rfl⟩
    exact ⟨(h₅.1.trans h₄.cpuProc).trans hforget.1, (h₅.2.trans h₄.np).trans hforget.2⟩
  · cases hrun; exact hforget

namespace OnCpu

/-- Only the state of the process on the CPU matters. -/
theorem congr (h : OnCpu k) (hcpu : k'.cpuProc = k.cpuProc) (hnp : k'.np = k.np)
    (hs : ∀ p, k.cpuProc = some p → (k.proc p).state = .RUNNING → (k'.proc p).state = .RUNNING) :
    OnCpu k' := by
  refine ⟨fun p hp => ?_, fun i => ?_⟩
  · rw [hcpu] at hp
    exact hs p hp (h.running p hp)
  · rw [hnp]
    exact h.np i

theorem back (h : OnCpu k) {k₁ : Kernel} (hnp : k₁.np = k.np) (hrun : schedReturn k₁ p = .ok k') :
    OnCpu k' := by
  obtain ⟨hcpu, hnp'⟩ := schedReturn_off hrun
  refine ⟨fun q hq => ?_, fun i => ?_⟩
  · rw [hcpu] at hq
    cases hq
  · rw [hnp', hnp]
    exact h.np i

theorem setProc (h : OnCpu k) (i : Slot) {f : Proc → Proc}
    (hf : k.cpuProc = some i → (f (k.proc i)).state = .RUNNING) : OnCpu (k.setProc i f) := by
  refine h.congr rfl rfl fun p hp hs => ?_
  by_cases hpi : p = i
  · subst hpi
    rw [setProc_proc_self]
    exact hf hp
  · rwa [setProc_proc_of_ne _ _ _ _ hpi]

theorem not_cpu (h : OnCpu k) (hs : (k.proc p).state ≠ .RUNNING) : k.cpuProc ≠ some p :=
  fun hp => hs (h.running p hp)

theorem makeRunnable (h : OnCpu k) (hrun : Mlfq.makeRunnable k p = .ok k')
    (hp : k.cpuProc ≠ some p) : OnCpu k' ∧ k'.np = k.np := by
  rw [Mlfq.makeRunnable] at hrun
  have hsame := enqueue_sameButLinks hrun
  have hset : OnCpu (k.setProc p fun q => { q with state := .RUNNABLE }) :=
    h.setProc p fun hcpu => absurd hcpu hp
  exact ⟨hset.congr hsame.cpuProc hsame.np fun i _ hi => by rwa [hsame.state_eq], hsame.np⟩

theorem wakeOne (h : OnCpu k) {chan : Option Chan} (hrun : Mlfq.wakeOne chan k p = .ok k') :
    OnCpu k' ∧ k'.np = k.np := by
  rw [Mlfq.wakeOne] at hrun
  split at hrun
  · rename_i hsleep
    exact h.makeRunnable hrun (h.not_cpu (by simp [hsleep.1]))
  · cases hrun; exact ⟨h, rfl⟩

theorem wakeup1 (h : OnCpu k) {chan : Option Chan} (hrun : Mlfq.wakeup1 k chan = .ok k') :
    OnCpu k' ∧ k'.np = k.np :=
  foldlM_invariant (I := fun k₁ => OnCpu k₁ ∧ k₁.np = k.np)
    (fun _ _ _ h₁ h₂ => ⟨(h₁.1.wakeOne h₂).1, (h₁.1.wakeOne h₂).2.trans h₁.2⟩) ⟨h, rfl⟩ hrun

theorem reparentOne (h : OnCpu k) {c : Slot} (hrun : Mlfq.reparentOne p k c = .ok k') :
    OnCpu k' ∧ k'.np = k.np := by
  rw [Mlfq.reparentOne] at hrun
  split at hrun
  · have hset : OnCpu (k.setProc c fun q => { q with parent := k.initproc }) :=
      h.setProc c fun hc => h.running c hc
    simp only at hrun
    split at hrun
    · exact hset.wakeup1 hrun
    · cases hrun; exact ⟨hset, rfl⟩
  · cases hrun; exact ⟨h, rfl⟩

theorem exit (h : OnCpu k) (hrun : Mlfq.exit k p = .ok k') : OnCpu k' := by
  rw [Mlfq.exit] at hrun
  split at hrun
  · cases hrun
  simp only [bind_eq_ok] at hrun
  obtain ⟨k₁, hk₁, k₂, hk₂, hrun⟩ := hrun
  have h₁ := h.wakeup1 hk₁
  have h₂ : OnCpu k₂ ∧ k₂.np = k₁.np :=
    foldlM_invariant (I := fun k => OnCpu k ∧ k.np = k₁.np)
      (fun _ _ _ ha hb => ⟨(ha.1.reparentOne hb).1, (ha.1.reparentOne hb).2.trans ha.2⟩)
      ⟨h₁.1, rfl⟩ hk₂
  refine h.back ?_ hrun
  exact h₂.2.trans h₁.2

theorem allocproc (h : OnCpu k) : OnCpu (Mlfq.allocproc k).2 ∧
    (Mlfq.allocproc k).2.cpuProc = k.cpuProc ∧
    ∀ c, (Mlfq.allocproc k).1 = some c → k.cpuProc ≠ some c := by
  rw [Mlfq.allocproc]
  split
  · exact ⟨h, rfl, fun c hc => by cases hc⟩
  · rename_i c hc
    have hunused : (k.proc c).state = .UNUSED := by simpa using List.find?_some hc
    have hcpu := h.not_cpu (p := c) (by simp [hunused])
    have hnext : OnCpu { k with nextpid := k.nextpid + 1 } := ⟨h.running, h.np⟩
    refine ⟨?_, rfl, fun x hx => ?_⟩
    · dsimp only
      exact hnext.setProc c fun hc => absurd hc hcpu
    · cases hx
      exact hcpu

theorem forkAlloc (h : OnCpu k) (hcpu : k.cpuProc = some p) (ok : Bool) :
    OnCpu (Mlfq.forkAlloc k p ok) := by
  obtain ⟨hok, hcpu', hnew⟩ := h.allocproc
  rw [Mlfq.forkAlloc]
  split
  · rename_i k₁ heq
    rw [heq] at hok
    exact hok
  · rename_i c k₁ heq
    rw [heq] at hok hcpu' hnew
    have hne := hnew c rfl
    split
    · refine ⟨hok.running, fun i => ?_⟩
      show Function.update k₁.np p (some c) i ≠ some i
      by_cases hip : i = p
      · subst hip
        rw [Function.update_self]
        exact fun hci => hne (hcpu.trans hci.symm)
      · rw [Function.update_of_ne hip]
        exact hok.np i
    · refine hok.setProc c fun hc => ?_
      rw [hcpu'] at hc
      exact absurd hc hne

theorem forkFinish (h : OnCpu k) (hcpu : k.cpuProc = some p) {ok : Bool}
    (hrun : Mlfq.forkFinish k p ok = .ok k') : OnCpu k' := by
  rw [Mlfq.forkFinish] at hrun
  split at hrun
  · cases hrun
  · rename_i c hc
    have hne : k.cpuProc ≠ some c := fun hcc => by
      rw [hcpu] at hcc
      cases hcc
      exact h.np p hc
    have h₀ : OnCpu { k with np := Function.update k.np p none } := by
      refine ⟨h.running, fun i => ?_⟩
      show Function.update k.np p none i ≠ some i
      by_cases hip : i = p
      · subst hip
        rw [Function.update_self]
        simp
      · rw [Function.update_of_ne hip]
        exact h.np i
    simp only at hrun
    split at hrun
    · have hset := h₀.setProc (f := fun q => { q with parent := some p }) c fun hcc => absurd hcc hne
      exact (hset.makeRunnable hrun hne).1
    · cases hrun
      exact h₀.setProc c fun hcc => absurd hcc hne

theorem tick (h : OnCpu k) {user : Bool} (hrun : Mlfq.tick k user = .ok k') : OnCpu k' := by
  rw [Mlfq.tick] at hrun
  simp only [bind_eq_ok] at hrun
  obtain ⟨k₁, hk₁, hrun⟩ := hrun
  have h₀ : OnCpu { k with globalTick := k.globalTick + 1 } := ⟨h.running, h.np⟩
  have h₁ := (h₀.wakeup1 hk₁).1
  split at hrun
  · cases hrun; exact h₁
  · rename_i p hp
    split at hrun
    · have hset := h₁.setProc (f := fun q => { q with timeAllotment := q.timeAllotment + 1 }) p
        fun _ => by assumption
      split at hrun
      · cases hrun; exact hset
      · refine hset.back ?_ hrun
        rfl
    · cases hrun; exact h₁

theorem schedule (h : OnCpu k) (hrun : Mlfq.schedule k = .ok k') : OnCpu k' := by
  rw [Mlfq.schedule] at hrun
  split at hrun
  · cases hrun
  rename_i hcpu
  rw [Option.isSome_iff_ne_none, not_not] at hcpu
  simp only [bind_eq_ok, Prod.exists] at hrun
  obtain ⟨r, k₁, hpick, hrun⟩ := hrun
  have h₁ : k₁.cpuProc = none ∧ k₁.np = k.np := by
    rcases pick_effect hpick with ⟨rfl, _⟩ | ⟨_, hsame, _⟩
    · exact ⟨hcpu, rfl⟩
    · exact ⟨hsame.cpuProc.trans hcpu, hsame.np⟩
  have hnp : ∀ i, k₁.np i ≠ some i := by
    rw [h₁.2]
    exact h.np
  cases r with
  | none =>
    cases hrun
    refine ⟨fun p hp => ?_, hnp⟩
    have hp' : k₁.cpuProc = some p := hp
    rw [h₁.1] at hp'
    cases hp'
  | some x =>
    simp only at hrun
    split at hrun
    · cases hrun
    · cases hrun
      refine ⟨fun p hp => ?_, hnp⟩
      cases hp
      rw [setProc_proc_self]

theorem step {e : Step} (h : OnCpu k) (hrun : Mlfq.step k e = .ok k') : OnCpu k' := by
  have hby : ∀ {f : Slot → Except Stop Kernel}, byProc k f = .ok k' →
      (∀ p, k.cpuProc = some p → f p = .ok k' → OnCpu k') → OnCpu k' := by
    intro f hf hp
    rw [byProc] at hf
    split at hf
    · cases hf
    · exact hp _ ‹_› hf
  cases e with
  | forkAlloc ok => exact hby hrun fun p hcpu hp => by cases hp; exact h.forkAlloc hcpu ok
  | forkFinish ok => exact hby hrun fun p hcpu hp => h.forkFinish hcpu hp
  | exit => exact hby hrun fun p _ hp => h.exit hp
  | wait =>
    refine hby hrun fun p hcpu hp => ?_
    rw [wait] at hp
    split at hp
    · rename_i c hc
      have hzombie : (k.proc c).parent = some p ∧ (k.proc c).state = .ZOMBIE := by
        simpa using List.find?_some hc
      cases hp
      exact h.setProc c fun hcc => absurd hcc (h.not_cpu (by simp [hzombie.2]))
    · split at hp
      · cases hp; exact h
      · refine h.back ?_ hp
        rfl
  | sleep chan =>
    refine hby hrun fun p _ hp => h.back ?_ hp
    rfl
  | wakeup chan => exact (h.wakeup1 hrun).1
  | kill pid =>
    refine hby hrun fun p _ hp => ?_
    rw [kill] at hp
    split at hp
    · cases hp; exact h
    · rename_i x _
      have hset : OnCpu (k.setProc x fun q => { q with killed := true }) :=
        h.setProc x fun hx => h.running x hx
      simp only at hp
      split at hp
      · rename_i hsleep
        exact (hset.makeRunnable hp (hset.not_cpu (by rw [hsleep]; simp))).1
      · cases hp; exact hset
  | yield =>
    refine hby hrun fun p _ hp => h.back ?_ hp
    rfl
  | setPriority pid pr =>
    refine hby hrun fun p _ hp => ?_
    cases hp
    rw [setPriority]
    split
    · exact h
    · split
      · exact h
      · exact h.setProc _ fun hx => h.running _ hx
  | schedulerLock pw =>
    refine hby hrun fun p hcpu hp => ?_
    rw [schedulerLock] at hp
    split at hp
    · cases hp; exact h
    · split at hp
      · cases hp
        have h₀ : OnCpu { k with globalTick := 0, schedulerLocked := true } := ⟨h.running, h.np⟩
        exact h₀.setProc p fun hx => h.running p hx
      · exact h.exit hp
  | schedulerUnlock pw =>
    refine hby hrun fun p _ hp => ?_
    rw [schedulerUnlock] at hp
    split at hp
    · cases hp; exact h
    · split at hp
      · obtain ⟨hcpu, hnp, hs⟩ := unlockHolder_off hp
        exact h.congr hcpu hnp fun q _ hq => by rwa [hs]
      · exact h.exit hp
  | tick user => exact h.tick hrun
  | schedule => exact h.schedule hrun

theorem of_init (h : Init k) : OnCpu k := by
  have hboot : OnCpu boot := ⟨by simp [boot], by simp [boot]⟩
  obtain ⟨hok, hcpu, hnew⟩ := hboot.allocproc
  rw [Init, userinit] at h
  split at h
  · cases h
  · rename_i p k₁ heq
    rw [heq] at hok hcpu
    have h₁ : OnCpu { k₁ with initproc := some p } := ⟨hok.running, hok.np⟩
    refine (h₁.makeRunnable h ?_).1
    show k₁.cpuProc ≠ some p
    rw [hcpu]
    simp [boot]

end OnCpu

/-- The process on the CPU is `RUNNING`. -/
theorem running_of_reachable {G : Kernel → Step → Prop} (h : Reachable Init (Steps step G) k)
    (hcpu : k.cpuProc = some p) : (k.proc p).state = .RUNNING := by
  have hon : OnCpu k := by
    refine h.invariant (fun _ => OnCpu.of_init) ?_
    rintro k k' hk ⟨e, _, hstep⟩
    exact hk.step hstep
  exact hon.running p hcpu

/-! ### The call -/

/-- The call succeeds, gives the lock up, and moves the caller in front of everybody else; the
    others stay where they are. -/
def Unlocks (k : Kernel) (p : Slot) : Prop :=
  ∃ k', schedulerUnlock k p schedPassword = .ok k' ∧ k'.schedulerLocked = false ∧
    (∀ i, (k'.proc i).lockScheduler = false) ∧
    ((k'.proc p).level = 0 ∧ (k'.proc p).timeAllotment = 0 ∧ (k'.proc p).timeQuantum = 4) ∧
    ∃ q : Nat → List Slot, (∀ l < 3, Chain k.next (k.levelQueue l) (q l)) ∧
      Chain k'.next (k'.levelQueue 0) (p :: (q 0).erase p) ∧
      ∀ l < 3, l ≠ 0 → Chain k'.next (k'.levelQueue l) ((q l).erase p)

/-- Nobody holds the lock any more. -/
theorem LockInv.nobody (h : LockInv k) (hfree : k.schedulerLocked = false) (i : Slot) :
    (k.proc i).lockScheduler = false := by
  rw [Bool.eq_false_iff]
  intro hi
  rw [(h.holder i hi).1] at hfree
  cases hfree

/-- The caller at the head of `level_queue[0]`. -/
theorem pushHead_self (hs : (k.proc p).state = .RUNNING) :
    ((pushHead k p).proc p).level = 0 ∧ ((pushHead k p).proc p).timeAllotment = 0 ∧
      ((pushHead k p).proc p).timeQuantum = 4 := by
  rw [pushHead, if_pos (.inr hs), setQueue_proc, setProc_proc_self]
  exact ⟨rfl, rfl, rfl⟩

theorem clearLock_queues {q : Nat → List Slot} (h : Queues k q) (p : Slot) :
    Queues (clearLock k p) q := by
  have h₀ : Queues { k with schedulerLocked := false } q :=
    h.congr (fun _ => rfl) (fun _ => rfl) rfl
  exact h₀.setProc p rfl rfl

theorem clearLock_self (k : Kernel) (p : Slot) :
    (clearLock k p).proc p = { k.proc p with lockScheduler := false } := setProc_proc_self ..

theorem unlocks_of_own (h : Tidy k) (hlock : LockInv k) (hlocked : k.schedulerLocked = true)
    (hcpu : k.cpuProc = some p) (hs : (k.proc p).state = .RUNNING)
    (hown : LinkedIn k (k.proc p).level p) : Unlocks k p := by
  obtain ⟨q, hQ, hnil⟩ := h.queues
  have hmem : p ∈ q (k.proc p).level := hQ.linkedIn_iff.mp hown
  have hsched := hlock.onCpu p hcpu
  have hheld : (k.proc p).lockScheduler = true := by
    obtain ⟨x, hx, hheld⟩ := hlock.held hlocked
    rw [hsched] at hx
    rwa [Option.some.inj hx]
  obtain ⟨d, hd, hsame, -, hflag, hQd⟩ := dequeueSpecific_spec (clearLock_queues hQ p) hmem
  have hsd : (d.proc p).state = .RUNNING := by
    rw [hsame.state_eq, clearLock_self]
    exact hs
  have hfound : unlockFound k p = .ok (pushHead d p) := by
    rw [unlockFound, dropNotRunnable, clearLock_self, if_pos (by simp [hs])]
    have hd' : dequeueSpecific (clearLock k p) (k.proc p).level p = .ok d := hd
    simp only [hd', ok_bind]
  obtain ⟨hlock', hfree⟩ := hlock.unlockFound hsched hfound
  refine ⟨_, ?_, hfree, hlock'.nobody hfree, pushHead_self hsd, q, fun l _ => hQ.chain l, ?_⟩
  · rw [schedulerUnlock, if_neg (by simp [hlocked]), if_pos rfl, unlockHolder,
      if_neg (by simp [hlocked]), h.findHolder hlock hheld
        ⟨_, Nat.lt_succ_of_le (h.level p), hown⟩]
    exact hfound
  · -- only the queue of the caller's level changes, and then the first one
    have hlists : ∀ l, Function.update q (k.proc p).level ((q (k.proc p).level).erase p) l =
        (q l).erase p := fun l => by
      by_cases hl : l = (k.proc p).level
      · rw [hl, Function.update_self]
      · rw [Function.update_of_ne hl, List.erase_of_not_mem fun hp => hl (hQ.level_unique hp hmem)]
    generalize Function.update q (k.proc p).level ((q (k.proc p).level).erase p) = q₁ at hQd hlists
    have hQ' : Queues (pushHead d p) (Function.update q₁ 0 (p :: q₁ 0)) := by
      rw [pushHead, if_pos (.inr hsd)]
      exact hQd.insertHead hflag rfl rfl
    refine ⟨?_, fun l _ hl => ?_⟩
    · have hc := hQ'.chain 0
      rwa [Function.update_self, hlists] at hc
    · have hc := hQ'.chain l
      rwa [Function.update_of_ne hl, hlists] at hc

theorem own_of_unlocks (h : Tidy k) (hlock : LockInv k) (hlocked : k.schedulerLocked = true)
    (hcpu : k.cpuProc = some p) (hs : (k.proc p).state = .RUNNING) (hu : Unlocks k p) :
    LinkedIn k (k.proc p).level p := by
  obtain ⟨k', hrun, hfree, -, -, q, hq, hq0, hql⟩ := hu
  rw [schedulerUnlock, if_neg (by simp [hlocked]), if_pos rfl] at hrun
  -- the caller is found
  rcases unlockHolder_effect hrun with ⟨rfl, _⟩ | ⟨x, hx, hfound⟩
  · rw [hlocked] at hfree
    cases hfree
  have hxp := hlock.found hx
  rw [hlock.onCpu p hcpu] at hxp
  cases hxp
  obtain ⟨⟨l, hl, hlink⟩, -⟩ := findHolder_some hx
  have hl3 : l < 3 := by
    simp only [List.mem_cons, List.not_mem_nil, or_false] at hl
    omega
  by_contra hown
  -- it is not in the queue of its level, and so it stays in the queue in which it is
  obtain ⟨qs, hQ, -⟩ := h.queues
  have hnot : p ∉ qs (k.proc p).level := fun hp => hown (hQ.linkedIn_iff.mpr hp)
  have hpush : pushHead (clearLock k p) p = k' := by
    rw [unlockFound, dropNotRunnable, clearLock_self, if_pos (by simp [hs])] at hfound
    have hd : dequeueSpecific (clearLock k p) (k.proc p).level p = .ok (clearLock k p) :=
      dequeueSpecific_of_not_mem (clearLock_queues hQ p) hnot
    simp only [hd, ok_bind, Except.ok.injEq] at hfound
    exact hfound
  have hsc : ((clearLock k p).proc p).state = .RUNNING := by
    rw [clearLock_self]
    exact hs
  rw [pushHead, if_pos (.inr hsc)] at hpush
  have hnext : ∀ a, a ≠ p → k'.next a = k.next a := fun a ha => by
    rw [← hpush, setQueue_next, Kernel.next, setProc_proc_of_ne _ _ _ _ ha, clearLock,
      setProc_proc_of_ne _ _ _ _ ha]
    rfl
  have hself : k'.next p = k.levelQueue 0 := by
    rw [← hpush, setQueue_next, Kernel.next, setProc_proc_self]
    rfl
  have hlinked : Linked k'.next (k.levelQueue l) p := by
    obtain ⟨us, hseg, hnd⟩ := Linked.first hlink
    have hp : p ∉ us := fun hp => (List.nodup_append.mp hnd).2.2 p hp p (by simp) rfl
    have hseg' : Seg k'.next (k.levelQueue l) us (some p) :=
      hseg.congr fun a ha => hnext a fun hap => hp (hap ▸ ha)
    exact hseg'.linked_end (.here p)
  by_cases h0 : l = 0
  · -- behind itself
    subst h0
    rw [← hself] at hlinked
    have hhead : k'.levelQueue 0 = some p := by
      rw [← hpush, setQueue_levelQueue, Function.update_self]
    rw [hhead] at hq0
    exact not_chain_of_loop hlinked _ hq0
  · have hsame : k'.levelQueue l = k.levelQueue l := by
      rw [← hpush, setQueue_levelQueue, Function.update_of_ne h0]
      rfl
    rw [← hsame, (hql l hl3 h0).linked_iff, ((hq l hl3).nodup).mem_erase_iff] at hlinked
    exact hlinked.1 rfl

end Xv6.Mlfq
