import Xv6.Mlfq.Charge
import Xv6.Mlfq.Tidy
import Xv6.Mlfq.UnlockSteps

namespace Xv6.Mlfq

open Xv6.Lib
open Tidy (Dispatched)

/-!
# MLFQ scheduler — a timer interrupt and the way back

A timer interrupt makes the running process come back to `scheduler()`, which dispatches it again
after some rounds.

* `Interrupted`, `Tidy.tick` — the interrupt when the queues are in order;
* `Rounds`, `Tidy.rounds` — the rounds of the scheduler up to the next dispatch of the process;
* `HalfLinked`, `Back` — the interrupt when the process is the head of `level_queue[0]` already, but
  `already_enqueued` does not say so.
-/

variable {k k' k₁ : Kernel} {p x : Slot}

/-- The scheduler dispatches other processes, which yield at once, and then `p`. -/
inductive Rounds (p : Slot) : Kernel → Kernel → Prop
  | dispatched {k k' : Kernel} : schedule k = .ok k' → k'.cpuProc = some p → Rounds p k k'
  | other {k k₁ k₂ k' : Kernel} {x : Slot} : schedule k = .ok k₁ → k₁.cpuProc = some x → x ≠ p →
      yield k₁ x = .ok k₂ → Rounds p k₂ k' → Rounds p k k'

/-! ### An interrupt while the queues are in order -/

/-- The running process has been interrupted while the scheduler is not locked. -/
structure Interrupted (k k' : Kernel) (p : Slot) : Prop where
  tidy : Tidy k'
  free : k'.schedulerLocked = false
  cpuProc : k'.cpuProc = none
  runnable : (k'.proc p).state = .RUNNABLE
  flag : ∀ i, (k'.proc i).alreadyEnqueued = true ↔
    (k.proc i).alreadyEnqueued = true ∨ SleepsOn k (some .ticks) i ∨ i = p
  head : ∀ a, k.levelQueue 0 = some a → k'.levelQueue 0 = some a

/-- Waking up keeps the head of a queue that is not empty. -/
theorem wakeup1_head {chan : Option Chan} {l : Nat} {a : Slot} (hrun : wakeup1 k chan = .ok k')
    (ha : k.levelQueue l = some a) : k'.levelQueue l = some a := by
  refine foldlM_invariant (I := fun k => k.levelQueue l = some a) (fun k₁ y k₂ h₁ h₂ => ?_) ha hrun
  rw [wakeOne] at h₂
  split at h₂
  · exact Tidy.enqueue_head h₂ h₁
  · cases h₂; exact h₁

theorem Tidy.tick (h : Tidy k) (hfree : k.schedulerLocked = false) (hcpu : k.cpuProc = some p)
    (hs : (k.proc p).state = .RUNNING) : ∃ k', Mlfq.tick k false = .ok k' ∧ Interrupted k k' p := by
  have h₀ : Tidy { k with globalTick := k.globalTick + 1 } :=
    h.congr (fun i => ⟨rfl, rfl, h.level i⟩) rfl
  obtain ⟨k₁, hk₁, hwoken⟩ := h₀.wakeup1 (some .ticks)
  have hawake : ¬ SleepsOn k (some .ticks) p := fun hp => by
    rw [SleepsOn, hs] at hp
    cases hp.1
  have hs₁ : (k₁.proc p).state = .RUNNING := by
    rw [hwoken.others p hawake]
    exact hs
  have hcpu₁ : k₁.cpuProc = some p := hwoken.cpuProc.trans hcpu
  -- the interrupt charges the process and makes it `RUNNABLE`
  let f : Proc → Proc := fun q => { q with timeAllotment := q.timeAllotment + 1 }
  let g : Proc → Proc := fun q => { q with state := .RUNNABLE }
  have h₂ : Tidy ((k₁.setProc p f).setProc p g) := by
    refine Tidy.setProc ?_ (fun _ => ⟨rfl, rfl⟩) ?_
    · exact hwoken.tidy.setProc (fun _ => ⟨rfl, rfl⟩) (hwoken.tidy.level p)
    · rw [setProc_proc_self]
      exact hwoken.tidy.level p
  have hflag₂ : ∀ i, (((k₁.setProc p f).setProc p g).proc i).alreadyEnqueued =
      (k₁.proc i).alreadyEnqueued := fun i => by
    by_cases hip : i = p
    · subst hip; rw [setProc_proc_self, setProc_proc_self]
    · rw [setProc_proc_of_ne _ _ _ _ hip, setProc_proc_of_ne _ _ _ _ hip]
  obtain ⟨k', hk', hback⟩ := h₂.comeBack (p := p) (hwoken.schedulerLocked.trans hfree) (by
    rw [setProc_proc_self])
  refine ⟨k', ?_, hback.tidy, hback.free, hback.cpuProc, ?_, fun i => ?_, fun a ha => ?_⟩
  · rw [Mlfq.tick, hk₁, ok_bind]
    simp only [hcpu₁]
    rw [if_pos hs₁, if_neg (by simp)]
    exact hk'
  · rw [hback.state, setProc_proc_self]
  · rw [hback.flag, hflag₂, hwoken.flag, or_assoc]
    rfl
  · have hhead₁ : k₁.levelQueue 0 = some a := by
      refine wakeup1_head hk₁ ?_
      exact ha
    exact hback.head a hhead₁

/-- The rounds up to the dispatch of `p` take only `p` out of the queues. -/
theorem Tidy.rounds (h : Tidy k) (hfree : k.schedulerLocked = false) (hr : Rounds p k k') :
    Dispatched k k' p := by
  induction hr with
  | dispatched hrun hcpu => exact h.schedule hfree hrun hcpu
  | @other k k₁ k₂ k' x hrun hcpu hxp hyield _ ih =>
    have h₁ := h.schedule hfree hrun hcpu
    have hset : Tidy (k₁.setProc x fun q => { q with state := .RUNNABLE }) :=
      h₁.tidy.setProc (fun _ => ⟨rfl, rfl⟩) (h₁.tidy.level x)
    obtain ⟨k₂', hk₂, hback⟩ := hset.comeBack (p := x) h₁.free (by rw [setProc_proc_self])
    cases hyield.symm.trans hk₂
    have h₂ := ih hback.tidy hback.free
    have hflag : ∀ i, (k₂.proc i).alreadyEnqueued = true ↔ (k.proc i).alreadyEnqueued = true := by
      intro i
      rw [hback.flag]
      by_cases hix : i = x
      · subst hix
        simp [h₁.queued]
      · rw [setProc_proc_of_ne _ _ _ _ hix, h₁.flag]
        simp [hix]
    exact ⟨h₂.tidy, h₂.free, h₂.cpuProc, (hflag p).mp h₂.queued, fun i => by rw [h₂.flag, hflag],
      h₂.next, h₂.running⟩

/-- A `RUNNABLE` process at the head of `level_queue[0]` is dispatched at once. -/
theorem Tidy.rounds_head (h : Tidy k) (hfree : k.schedulerLocked = false)
    (hcpu : k.cpuProc = none) (hs : (k.proc p).state = .RUNNABLE)
    (hhead : k.levelQueue 0 = some p) : ∃ k', Rounds p k k' := by
  obtain ⟨q, hQ, _⟩ := h.queues
  have hc := hQ.chain 0
  rw [hhead] at hc
  obtain ⟨t, ht, _⟩ := chain_some_iff.mp hc
  obtain ⟨k₁, hk₁, hsame, -⟩ := dequeue_cons hQ ht
  have hpick : Mlfq.pick k = .ok (some p, k₁) := by
    rw [Mlfq.pick, if_neg (by simp [hfree]), hk₁]
  let k₂ := { k₁ with cpuProc := some p, schedP := some p }.setProc p fun q =>
    { q with state := .RUNNING, chan := none }
  have hk₂ : k₂.cpuProc = some p := rfl
  refine ⟨k₂, .dispatched ?_ hk₂⟩
  rw [Mlfq.schedule, if_neg (by simp [hcpu]), hpick, ok_bind]
  simp only
  rw [if_neg (by rw [hsame.state_eq p, hs]; simp)]

/-! ### An interrupt behind the assignment to `level_queue[0]`

The caller is linked, but its flag is not set yet, so that the scheduler links it once more. -/

/-- Updates that do not disturb each other. -/
theorem setProc_comm (k : Kernel) {i j : Slot} {f g : Proc → Proc}
    (h : i = j → ∀ q, f (g q) = g (f q)) :
    (k.setProc i f).setProc j g = (k.setProc j g).setProc i f := by
  by_cases hij : i = j
  · subst hij
    rw [setProc_setProc, setProc_setProc]
    exact congrArg (k.setProc i) (funext fun q => (h rfl q).symm)
  · simp only [Kernel.setProc]
    rw [Function.update_of_ne (Ne.symm hij), Function.update_of_ne hij, Function.update_comm hij]

/-- The flag of the process is set. -/
def flagged (k : Kernel) (p : Slot) : Kernel := k.setProc p fun q => { q with alreadyEnqueued := true }

theorem flagged_proc_self (k : Kernel) (p : Slot) :
    (flagged k p).proc p = { k.proc p with alreadyEnqueued := true } := setProc_proc_self ..

theorem flagged_proc_of_ne (k : Kernel) (hx : x ≠ p) : (flagged k p).proc x = k.proc x :=
  setProc_proc_of_ne _ _ _ _ hx

theorem flagged_next (k : Kernel) (p : Slot) : (flagged k p).next = k.next := by
  funext i
  by_cases hip : i = p
  · subst hip
    rw [Kernel.next, flagged_proc_self, Kernel.next]
  · rw [Kernel.next, flagged_proc_of_ne k hip, Kernel.next]

theorem flagged_setProc (k : Kernel) (p x : Slot) {f : Proc → Proc}
    (hf : ∀ q, f { q with alreadyEnqueued := true } = { f q with alreadyEnqueued := true }) :
    (flagged k p).setProc x f = flagged (k.setProc x f) p :=
  setProc_comm k fun _ q => (hf q).symm

/-- `enqueue` does not read the flag of another process. -/
theorem enqueue_flagged (hxp : x ≠ p) (l : Nat) :
    enqueue (flagged k p) x l = (enqueue k x l).map fun k' => flagged k' p := by
  have hx := flagged_proc_of_ne k hxp
  have hlast : ∀ m : Kernel, (flagged m p).setProc x (fun q =>
      { q with next := none, alreadyEnqueued := true }) = flagged (m.setProc x fun q =>
        { q with next := none, alreadyEnqueued := true }) p := fun m =>
    setProc_comm m fun hpx => absurd hpx.symm hxp
  have hqueue : (flagged k p).levelQueue l = k.levelQueue l := rfl
  rw [enqueue, enqueue, hx, hqueue, flagged_next]
  split
  · rfl
  · split
    · exact congrArg Except.ok (hlast (k.setQueue l (some x)))
    · split
      · rfl
      · rw [flagged_setProc _ _ _ fun _ => rfl, hlast]
        rfl

theorem wakeOne_flagged {chan : Option Chan} (hp : (k.proc p).state ≠ .SLEEPING) :
    wakeOne chan (flagged k p) x = (wakeOne chan k x).map fun k' => flagged k' p := by
  by_cases hxp : x = p
  · subst hxp
    have hx : ((flagged k x).proc x).state = (k.proc x).state := by
      rw [flagged_proc_self]
    rw [wakeOne, wakeOne, hx, if_neg fun h => hp h.1, if_neg fun h => hp h.1]
    rfl
  · have hx := flagged_proc_of_ne k hxp
    rw [wakeOne, wakeOne, hx]
    split
    · rw [makeRunnable, makeRunnable, hx, flagged_setProc _ _ _ fun _ => rfl, enqueue_flagged hxp]
    · rfl

/-- Waking others up does not touch the flag of a process that is awake. -/
theorem wakeOne_awake {chan : Option Chan} (h : wakeOne chan k x = .ok k')
    (hp : (k.proc p).state ≠ .SLEEPING) : (k'.proc p).state = (k.proc p).state ∧
      (k'.proc p).alreadyEnqueued = (k.proc p).alreadyEnqueued := by
  rw [wakeOne] at h
  split at h
  · rename_i hx
    have hpx : p ≠ x := fun hpx => hp (hpx ▸ hx.1)
    rw [makeRunnable] at h
    have hproc : (k.setProc x fun q => { q with state := .RUNNABLE }).proc p = k.proc p :=
      setProc_proc_of_ne _ _ _ _ hpx
    refine ⟨?_, ?_⟩
    · rw [(enqueue_sameButLinks h).state_eq, hproc]
    · rcases enqueue_appends h with rfl | happ
      · rw [hproc]
      · rw [happ.flag p hpx, hproc]
  · cases h; exact ⟨rfl, rfl⟩

theorem wakeup1_awake {chan : Option Chan} (h : wakeup1 k chan = .ok k')
    (hp : (k.proc p).state ≠ .SLEEPING) :
    (k'.proc p).alreadyEnqueued = (k.proc p).alreadyEnqueued := by
  have hboth := foldlM_invariant (I := fun k₁ => (k₁.proc p).state = (k.proc p).state ∧
    (k₁.proc p).alreadyEnqueued = (k.proc p).alreadyEnqueued) (fun k₁ x k₂ h₁ h₂ => by
      have hx := wakeOne_awake h₂ (p := p) (by rw [h₁.1]; exact hp)
      exact ⟨hx.1.trans h₁.1, hx.2.trans h₁.2⟩) ⟨rfl, rfl⟩ h
  exact hboth.2

theorem wakeup1_flagged {chan : Option Chan} (hp : (k.proc p).state ≠ .SLEEPING)
    (h : wakeup1 (flagged k p) chan = .ok k') :
    ∃ k₁, wakeup1 k chan = .ok k₁ ∧ k' = flagged k₁ p := by
  suffices hloop : ∀ (xs : List Slot) (k : Kernel), (k.proc p).state ≠ .SLEEPING →
      xs.foldlM (wakeOne chan) (flagged k p) = .ok k' →
      ∃ k₁, xs.foldlM (wakeOne chan) k = .ok k₁ ∧ k' = flagged k₁ p from hloop _ k hp h
  intro xs
  induction xs with
  | nil =>
    intro k _ h
    cases h
    exact ⟨k, rfl, rfl⟩
  | cons y xs ih =>
    intro k hp h
    rw [List.foldlM_cons, wakeOne_flagged hp] at h
    obtain ⟨m, hm, h⟩ := bind_eq_ok.mp h
    cases hy : wakeOne chan k y with
    | error e =>
      rw [hy] at hm
      cases hm
    | ok m' =>
      rw [hy] at hm
      cases hm
      obtain ⟨k₁, hk₁, heq⟩ := ih m' (by rw [(wakeOne_awake hy hp).1]; exact hp) h
      exact ⟨k₁, by rw [List.foldlM_cons, hy]; exact hk₁, heq⟩

/-- The running process is the head of `level_queue[0]`, but its flag is not set. -/
structure HalfLinked (k : Kernel) (p : Slot) : Prop where
  tidy : Tidy (flagged k p)
  flag : (k.proc p).alreadyEnqueued = false
  head : k.levelQueue 0 = some p
  free : k.schedulerLocked = false
  cpuProc : k.cpuProc = some p
  running : (k.proc p).state = .RUNNING

/-- The process has come back to `scheduler()`, which has changed its level and is about to queue
    it. -/
structure Back (k m : Kernel) (p : Slot) : Prop where
  start : HalfLinked k p
  tidy : Tidy (flagged m p)
  flag : (m.proc p).alreadyEnqueued = false
  head : m.levelQueue 0 = some p
  free : m.schedulerLocked = false
  cpuProc : m.cpuProc = none
  runnable : (m.proc p).state = .RUNNABLE
  globalTick : m.globalTick = k.globalTick + 1
  level : (m.proc p).level = (k.rank p).charged.aged.level
  others : ∀ i, i ≠ p → ((m.proc i).alreadyEnqueued = true ↔
    (k.proc i).alreadyEnqueued = true ∨ SleepsOn k (some .ticks) i)
  tick : tick k false = requeue m p >>= fun k => boostIfDue (forgetP k)
  next : ∃ k₂, wakeup1 { k with globalTick := k.globalTick + 1 } (some .ticks) = .ok k₂ ∧
    m.next p = k₂.next p

theorem aged_level_le {r : Rank} (h : r.level ≤ 2) : r.charged.aged.level ≤ 2 := by
  unfold Rank.aged
  split
  · rename_i hlow
    exact hlow.1
  · split <;> exact h

/-- While the scheduler is not locked, `changeLevel` assigns to fields of the process only. -/
theorem changeLevel_free (hfree : k.schedulerLocked = false) (p : Slot) :
    ∃ f : Proc → Proc, changeLevel k p = .ok (k.setProc p f) ∧ ∀ q, (f q).next = q.next ∧
      (f q).alreadyEnqueued = q.alreadyEnqueued ∧ (f q).state = q.state := by
  have hleave : leaveLevel k p = .ok k := by rw [leaveLevel, if_neg (by simp [hfree])]
  rw [changeLevel, hleave]
  split
  · exact ⟨_, rfl, fun _ => ⟨rfl, rfl, rfl⟩⟩
  · split
    · exact ⟨_, rfl, fun _ => ⟨rfl, rfl, rfl⟩⟩
    · refine ⟨id, ?_, fun _ => ⟨rfl, rfl, rfl⟩⟩
      rw [Kernel.setProc, id, Function.update_eq_self]

theorem HalfLinked.back (h : HalfLinked k p) : ∃ m, Back k m p := by
  have hawake : (k.proc p).state ≠ .SLEEPING := by rw [h.running]; simp
  have h₀ : Tidy (flagged { k with globalTick := k.globalTick + 1 } p) :=
    h.tidy.congr (fun i => ⟨rfl, rfl, h.tidy.level i⟩) rfl
  obtain ⟨kw, hkw, hwoken⟩ := h₀.wakeup1 (some .ticks)
  obtain ⟨k₁, hk₁, rfl⟩ := wakeup1_flagged (by exact hawake) hkw
  have hflagged : ∀ i, i ≠ p → (flagged { k with globalTick := k.globalTick + 1 } p).proc i =
      k.proc i := fun i hi => flagged_proc_of_ne _ hi
  have hflagged₁ : ∀ i, i ≠ p → (flagged k₁ p).proc i = k₁.proc i := fun i hi =>
    flagged_proc_of_ne _ hi
  have hs₁ : (k₁.proc p).state = .RUNNING := (wakeup1_running hk₁ p).mpr h.running
  have hcpu₁ : k₁.cpuProc = some p := hwoken.cpuProc.trans h.cpuProc
  have hflag₁ : (k₁.proc p).alreadyEnqueued = false := by
    rw [wakeup1_awake hk₁ (by exact hawake)]
    exact h.flag
  -- the interrupt charges the process and makes it `RUNNABLE`
  let f : Proc → Proc := fun q => { q with timeAllotment := q.timeAllotment + 1 }
  let g : Proc → Proc := fun q => { q with state := .RUNNABLE }
  let b : Kernel := { (k₁.setProc p f).setProc p g with cpuProc := none }
  have hfree : b.schedulerLocked = false := hwoken.schedulerLocked.trans h.free
  obtain ⟨e, hlevel, he⟩ := changeLevel_free hfree p
  have hproc : ∀ i, i ≠ p → (b.setProc p e).proc i = k₁.proc i := fun i hi => by
    rw [setProc_proc_of_ne _ _ _ _ hi]
    show ((k₁.setProc p f).setProc p g).proc i = k₁.proc i
    rw [setProc_proc_of_ne _ _ _ _ hi, setProc_proc_of_ne _ _ _ _ hi]
  have hself : (b.setProc p e).proc p = e (g (f (k₁.proc p))) := by
    rw [setProc_proc_self]
    show e (((k₁.setProc p f).setProc p g).proc p) = e (g (f (k₁.proc p)))
    rw [setProc_proc_self, setProc_proc_self]
  have hrank : ((b.setProc p e).proc p).level = (k.rank p).charged.aged.level := by
    have hb : b.rank p = (k.rank p).charged := by
      have hk₁rank : k₁.rank p = k.rank p := by rw [wakeup1_rank hk₁]; rfl
      rw [← hk₁rank]
      show (((k₁.setProc p f).setProc p g).proc p).rank = _
      rw [setProc_proc_self, setProc_proc_self]
      rfl
    show ((b.setProc p e).rank p).level = _
    rw [changeLevel_rank hlevel, Function.update_self, hb]
  refine ⟨b.setProc p e, ⟨h, ?_, ?_, ?_, hfree, rfl, ?_, hwoken.globalTick, hrank, fun i hi => ?_, ?_,
    k₁, hk₁, ?_⟩⟩
  · refine hwoken.tidy.congr (fun i => ?_) rfl
    by_cases hi : i = p
    · subst hi
      rw [flagged_proc_self, flagged_proc_self]
      refine ⟨?_, rfl, ?_⟩
      · show ((b.setProc i e).proc i).next = (k₁.proc i).next
        rw [hself, (he _).1]
      · show ((b.setProc i e).proc i).level ≤ 2
        have hlevel : (k.proc i).level ≤ 2 := by
          have hle := h.tidy.level i
          rwa [flagged_proc_self] at hle
        rw [hrank]
        exact aged_level_le hlevel
    · rw [flagged_proc_of_ne _ hi, flagged_proc_of_ne _ hi, hproc i hi]
      refine ⟨rfl, rfl, ?_⟩
      rw [← hflagged₁ i hi]
      exact hwoken.tidy.level i
  · rw [hself, (he _).2.1]
    exact hflag₁
  · have hhead : k₁.levelQueue 0 = some p := by
      refine wakeup1_head hk₁ ?_
      exact h.head
    exact hhead
  · rw [hself, (he _).2.2]
  · rw [hproc i hi, ← hflagged₁ i hi, hwoken.flag, hflagged i hi, SleepsOn, SleepsOn, hflagged i hi]
  · rw [tick, hk₁, ok_bind]
    simp only [hcpu₁]
    rw [if_pos hs₁, if_neg (by simp), yield, schedReturn, giveUpLock, if_neg (by simp), ok_bind,
      hlevel, ok_bind]
  · rw [Kernel.next, hself, (he _).1]
    rfl


/-- `enqueue` reads and writes one queue. -/
theorem enqueue_setQueue {l l' : Nat} (hl : l' ≠ l) (a : Option Slot) :
    enqueue (k.setQueue l' a) p l = (enqueue k p l).map fun k' => k'.setQueue l' a := by
  have hqueue : (k.setQueue l' a).levelQueue l = k.levelQueue l := by
    rw [setQueue_levelQueue, Function.update_of_ne hl.symm]
  rw [enqueue, enqueue, hqueue, setQueue_proc]
  split
  · rfl
  · split
    · refine congrArg Except.ok ?_
      simp only [Kernel.setQueue, Kernel.setProc]
      rw [Function.update_comm hl]
    · rw [setQueue_next]
      split <;> rfl

theorem enqueue_queue {l l' : Nat} (h : enqueue k p l = .ok k') (hl : l' ≠ l) :
    k'.levelQueue l' = k.levelQueue l' := by
  rw [enqueue] at h
  split at h
  · cases h; rfl
  · split at h
    · cases h
      simp [hl]
    · split at h
      · cases h
      · cases h; rfl

/-- The first process is taken out of a queue. -/
theorem Tidy.dequeueFirst (h : Tidy k) {l : Nat} (hhead : k.levelQueue l = some p) :
    Tidy (dequeue k l).2 ∧ ∀ i, i ≠ p →
      (((dequeue k l).2.proc i).alreadyEnqueued = true ↔ (k.proc i).alreadyEnqueued = true) := by
  obtain ⟨q, hQ, hnil⟩ := h.queues
  have hc := hQ.chain l
  rw [hhead] at hc
  obtain ⟨t, hq, -⟩ := chain_some_iff.mp hc
  obtain ⟨k₁, hk₁, hsame, -, -, hQ₁⟩ := dequeue_cons hQ hq
  have hnd := (hQ.chain l).nodup
  rw [hq, List.nodup_cons] at hnd
  obtain ⟨htidy, -, hflag⟩ := h.remove (x := p) hQ hnil hsame hQ₁ (by simp [hq]) fun i => by
    rw [hq, List.mem_cons]
    constructor
    · exact fun hi => ⟨.inr hi, fun hip => hnd.1 (by rwa [← hip])⟩
    · exact fun hi => hi.1.resolve_left hi.2
  rw [hk₁]
  refine ⟨htidy, fun i hi => ?_⟩
  rw [hflag]
  simp [hi]

namespace Back

variable {m : Kernel}

/-- On level 0 the process is linked behind itself, and unlinked again by its new `next`. -/
theorem levelZero (h : Back k m p) (hn : m.next p = none) (h0 : (m.proc p).level = 0) :
    ∃ k₂, Mlfq.tick k false = .ok k₂ ∧ Interrupted k k₂ p := by
  have hend : walkEnd m.next NPROC p = some p := by
    rw [show NPROC = 63 + 1 from rfl, walkEnd, hn]
  have hrequeue : requeue m p = .ok (flagged m p) := by
    rw [requeue, if_pos h.runnable, h0, enqueue, if_neg (by simp [h.flag]), h.head]
    simp only [hend]
    rw [setProc_setProc, flagged]
    refine congrArg Except.ok ?_
    have hproc : { m.proc p with next := none, alreadyEnqueued := true } =
        { m.proc p with alreadyEnqueued := true } := by
      rw [← hn]
      rfl
    rw [Kernel.setProc, Kernel.setProc, hproc]
  have hforget : forgetP (flagged m p) = { flagged m p with schedP := none } := by
    rw [forgetP, if_neg (by simp [flagged, h.free])]
  have htidy : Tidy { flagged m p with schedP := none } :=
    h.tidy.congr (fun i => ⟨rfl, rfl, h.tidy.level i⟩) rfl
  obtain ⟨k₂, hk₂, h₂, hfree, hcpu, hproc, hhead⟩ := htidy.boostIfDue h.free
  refine ⟨k₂, ?_, h₂, hfree, hcpu.trans h.cpuProc, ?_, fun i => ?_, fun a ha => hhead a ?_⟩
  · rw [h.tick, hrequeue, ok_bind, hforget, hk₂]
  · rw [(hproc p).1]
    show ((flagged m p).proc p).state = .RUNNABLE
    rw [flagged_proc_self]
    exact h.runnable
  · rw [(hproc i).2]
    show ((flagged m p).proc i).alreadyEnqueued = true ↔ _
    by_cases hi : i = p
    · subst hi
      rw [flagged_proc_self]
      simp
    · rw [flagged_proc_of_ne _ hi, h.others i hi]
      simp [hi]
  · rw [h.start.head] at ha
    cases ha
    exact h.head

/-- On another level the process is linked twice.  The scheduler takes it out of
    `level_queue[0]` first, so that it is linked once when it runs again. -/
theorem levelOther (h : Back k m p) (hn : m.next p = none) (h0 : (m.proc p).level ≠ 0)
    (hdue : k.globalTick + 1 < 100) : ∃ k₂, Mlfq.tick k false = .ok k₂ ∧ Queued k₂ p ∧
      ∀ k₃, Rounds p k₂ k₃ → Tidy (flagged k₃ p) ∧
        ∀ i, i ≠ p → ((k₃.proc i).alreadyEnqueued = true ↔ (m.proc i).alreadyEnqueued = true) := by
  have hlevel : (m.proc p).level < 3 := by
    have hle := h.tidy.level p
    rw [flagged_proc_self] at hle
    exact Nat.lt_succ_of_le hle
  -- without the head of `level_queue[0]` the queues are in order
  have hout : Tidy (m.setQueue 0 none) := by
    have hdeq : (dequeue (flagged m p) 0).2 = ((flagged m p).setQueue 0 none).setProc p fun q =>
        { q with next := none, alreadyEnqueued := false } := by
      have hhead : (flagged m p).levelQueue 0 = some p := h.head
      have hnext : ((flagged m p).proc p).next = none := by
        rw [flagged_proc_self]
        exact hn
      rw [dequeue, hhead]
      simp only [hnext]
    have htidy := (h.tidy.dequeueFirst (p := p) (l := 0) h.head).1
    rw [hdeq] at htidy
    refine htidy.congr (fun i => ?_) rfl
    by_cases hi : i = p
    · subst hi
      rw [setProc_proc_self]
      exact ⟨hn, h.flag, by have := hlevel; simp only [setQueue_proc]; omega⟩
    · rw [setProc_proc_of_ne _ _ _ _ hi, setQueue_proc, setQueue_proc, flagged_proc_of_ne _ hi]
      refine ⟨rfl, rfl, ?_⟩
      have hle := h.tidy.level i
      rwa [flagged_proc_of_ne _ hi] at hle
  obtain ⟨e, he, htidy, hsame, hflag⟩ := hout.enqueue (p := p) hlevel
  have hqueue : e.levelQueue 0 = none := by
    rw [enqueue_queue he (Ne.symm h0)]
    simp
  have hnext : e.next p = none := by
    rcases enqueue_appends he with rfl | happ
    · exact hn
    · exact happ.self
  have hm : m = (m.setQueue 0 none).setQueue 0 (some p) := by
    rw [← h.head]
    simp [Kernel.setQueue]
  have hrequeue : requeue m p = .ok (e.setQueue 0 (some p)) := by
    rw [requeue, if_pos h.runnable]
    have henq := enqueue_setQueue (k := m.setQueue 0 none) (p := p) (Ne.symm h0) (some p)
    rw [← hm] at henq
    have he' : enqueue (m.setQueue 0 none) p (m.proc p).level = .ok e := he
    rw [henq, he']
    rfl
  have htick : e.globalTick = k.globalTick + 1 := hsame.globalTick.trans h.globalTick
  let k₂ : Kernel := { e.setQueue 0 (some p) with schedP := none }
  have hrun : Mlfq.tick k false = .ok k₂ := by
    have hforget : forgetP (e.setQueue 0 (some p)) = k₂ := by
      rw [forgetP, if_neg]
      rw [setQueue_schedulerLocked, hsame.schedulerLocked, setQueue_schedulerLocked, h.free]
      simp
    have hdue₂ : ¬ k₂.globalTick ≥ 100 := by
      show ¬ e.globalTick ≥ 100
      omega
    rw [h.tick, hrequeue, ok_bind, hforget, boostIfDue, if_neg hdue₂]
  -- the next round takes the process from `level_queue[0]`
  let d : Kernel := (k₂.setQueue 0 none).setProc p fun q =>
    { q with next := none, alreadyEnqueued := false }
  let k₃ : Kernel := { d with cpuProc := some p, schedP := some p }.setProc p fun q =>
    { q with state := .RUNNING, chan := none }
  have hsched : Mlfq.schedule k₂ = .ok k₃ := by
    have hcpu : k₂.cpuProc = none := hsame.cpuProc.trans h.cpuProc
    have hpick : Mlfq.pick k₂ = .ok (some p, d) := by
      have hhead : k₂.levelQueue 0 = some p := by simp [k₂]
      have hnext₂ : (k₂.proc p).next = none := hnext
      have hdeq : dequeue k₂ 0 = (some p, d) := by
        rw [dequeue, hhead]
        simp only [hnext₂]
        rfl
      rw [Mlfq.pick, if_neg (by simp [k₂]), hdeq]
    have hs : (d.proc p).state = .RUNNABLE := by
      rw [setProc_proc_self]
      exact (hsame.state_eq p).trans h.runnable
    rw [Mlfq.schedule, if_neg (by simp [hcpu]), hpick, ok_bind]
    simp only [hs]
    rw [if_neg (by simp)]
  refine ⟨k₂, hrun, ⟨0, by omega, ?_⟩, fun k' hrounds => ?_⟩
  · have hhead : k₂.levelQueue 0 = some p := by simp [k₂]
    rw [LinkedIn, hhead]
    exact .here p
  · have hk' : k' = k₃ := by
      cases hrounds with
      | dispatched h₁ _ => exact Except.ok.inj (h₁.symm.trans hsched)
      | other h₁ hx hne _ _ =>
        cases h₁.symm.trans hsched
        cases hx
        exact absurd rfl hne
    subst hk'
    have hothers : ∀ i, i ≠ p → k₃.proc i = e.proc i := fun i hi => by
      rw [setProc_proc_of_ne _ _ _ _ hi]
      show d.proc i = (k₂.setQueue 0 none).proc i
      rw [setProc_proc_of_ne _ _ _ _ hi]
    have hself : k₃.proc p = { e.proc p with
        next := none, alreadyEnqueued := false, state := .RUNNING, chan := none } := by
      rw [setProc_proc_self]
      show { d.proc p with state := .RUNNING, chan := none } = _
      rw [setProc_proc_self]
      rfl
    refine ⟨htidy.congr (fun i => ?_) ?_, fun i hi => ?_⟩
    · by_cases hi : i = p
      · subst hi
        rw [flagged_proc_self, hself]
        exact ⟨hnext.symm, ((hflag i).mpr (.inr rfl)).symm, htidy.level i⟩
      · rw [flagged_proc_of_ne _ hi, hothers i hi]
        exact ⟨rfl, rfl, htidy.level i⟩
    · show Function.update (Function.update e.levelQueue 0 (some p)) 0 none = e.levelQueue
      rw [Function.update_idem, ← hqueue, Function.update_eq_self]
    · rw [hothers i hi, hflag]
      simp [hi]

end Back

/-! ### An interrupt while the process holds the scheduler lock -/

/-- Whoever is queued stays queued, and the links of the queues stay. -/
structure Keeps (k k' : Kernel) : Prop where
  flag : ∀ i, (k.proc i).alreadyEnqueued = true → (k'.proc i).alreadyEnqueued = true
  next : ∀ i j, (k.proc i).alreadyEnqueued = true → k.next i = some j → k'.next i = some j
  head : ∀ l a, k.levelQueue l = some a → k'.levelQueue l = some a

namespace Keeps

theorem refl (k : Kernel) : Keeps k k := ⟨fun _ h => h, fun _ _ _ h => h, fun _ _ h => h⟩

theorem trans {k'' : Kernel} (h : Keeps k k') (h' : Keeps k' k'') : Keeps k k'' :=
  ⟨fun i hi => h'.flag i (h.flag i hi), fun i j hi hj => h'.next i j (h.flag i hi) (h.next i j hi hj),
    fun l a ha => h'.head l a (h.head l a ha)⟩

theorem setProc (k : Kernel) (i : Slot) {f : Proc → Proc}
    (hf : ∀ q, (f q).next = q.next ∧ (f q).alreadyEnqueued = q.alreadyEnqueued) :
    Keeps k (k.setProc i f) := by
  refine ⟨fun j hj => ?_, fun j m _ hm => ?_, fun _ _ h => h⟩
  · by_cases hji : j = i
    · subst hji; rwa [setProc_proc_self, (hf _).2]
    · rwa [setProc_proc_of_ne _ _ _ _ hji]
  · by_cases hji : j = i
    · subst hji; rwa [Kernel.next, setProc_proc_self, (hf _).1]
    · rwa [Kernel.next, setProc_proc_of_ne _ _ _ _ hji]

theorem enqueue {l : Nat} (h : Mlfq.enqueue k x l = .ok k') : Keeps k k' := by
  by_cases hx : (k.proc x).alreadyEnqueued = true
  · rw [enqueue_of_flag hx] at h
    cases h
    exact .refl k
  · rcases enqueue_appends h with rfl | happ
    · exact .refl _
    · have hne : ∀ i, (k.proc i).alreadyEnqueued = true → i ≠ x := fun i hi hix => hx (hix ▸ hi)
      refine ⟨fun i hi => ?_, fun i j hi hj => ?_, fun l a ha => ?_⟩
      · rwa [happ.flag i (hne i hi)]
      · rcases happ.next i (hne i hi) with heq | ⟨hnone, _⟩
        · rwa [heq]
        · rw [hnone] at hj
          cases hj
      · exact Tidy.enqueue_head h ha

theorem wakeup1 {chan : Option Chan} (h : Mlfq.wakeup1 k chan = .ok k') : Keeps k k' := by
  refine foldlM_invariant (I := fun k₁ => Keeps k k₁) (fun k₁ y k₂ h₁ h₂ => h₁.trans ?_) (.refl k) h
  rw [wakeOne] at h₂
  split at h₂
  · exact (Keeps.setProc (f := fun q => { q with state := .RUNNABLE }) k₁ y
      fun _ => ⟨rfl, rfl⟩).trans (.enqueue h₂)
  · cases h₂; exact .refl _

/-- A path through a queue stays a path. -/
theorem linked (h : Keeps k k') (htidy : Tidy k) {a : Slot}
    (ha : (k.proc a).alreadyEnqueued = true) (hl : Linked k.next (some a) x) :
    Linked k'.next (some a) x := by
  generalize hc : some a = c at hl
  induction hl generalizing a with
  | here b => exact .here b
  | there b x hb ih =>
    cases hc
    refine .there _ _ ?_
    cases hj : k.next b with
    | none =>
      rw [hj] at hb
      cases hb
    | some j =>
      have hja : Queued k j := by
        obtain ⟨l, hlt, hlink⟩ := htidy.queued_iff.mpr ha
        exact ⟨l, hlt, Linked.step hlink hj⟩
      rw [h.next b j ha hj]
      have hx := ih (htidy.queued_iff.mp hja) hj.symm
      rwa [hj] at hx

theorem linkedIn (h : Keeps k k') (htidy : Tidy k) {l : Nat} (hl3 : l < 3) (hl : LinkedIn k l x) :
    LinkedIn k' l x := by
  cases ha : k.levelQueue l with
  | none =>
    rw [LinkedIn, ha] at hl
    cases hl
  | some a =>
    have hqa : Queued k a := ⟨l, hl3, by rw [LinkedIn, ha]; exact .here a⟩
    rw [LinkedIn, ha] at hl
    rw [LinkedIn, h.head l a ha]
    exact h.linked htidy (htidy.queued_iff.mp hqa) hl

end Keeps

/-- A process that was not queued is in the queue that it is enqueued to. -/
theorem Tidy.enqueue_linkedIn (h : Tidy k) {l : Nat} (hp : (k.proc p).alreadyEnqueued = false)
    (hrun : Mlfq.enqueue k p l = .ok k') : LinkedIn k' l p := by
  obtain ⟨q, hQ, -⟩ := h.queues
  obtain ⟨k₁, hk₁, -, hQ₁⟩ := enqueue_spec hQ l hp
  cases hrun.symm.trans hk₁
  rw [hQ₁.linkedIn_iff, Function.update_self]
  simp

/-- The holder of the scheduler lock has been interrupted. -/
structure HolderBack (k k' : Kernel) (p : Slot) : Prop where
  tidy : Tidy k'
  own : LinkedIn k' (k'.proc p).level p
  locked : k'.schedulerLocked = true
  cpuProc : k'.cpuProc = none
  schedP : k'.schedP = some p
  runnable : (k'.proc p).state = .RUNNABLE
  flag : ∀ i, (k.proc i).alreadyEnqueued = true → (k'.proc i).alreadyEnqueued = true
  /-- The holder is still in front of those it was in front of, or has moved to a lower queue. -/
  moved : (∀ a, (k.proc a).alreadyEnqueued = true → Linked k.next (some a) p →
      Linked k'.next (some a) p) ∧ (k'.proc p).level = (k.proc p).level ∨
    (k.proc p).level < (k'.proc p).level

/-- The level of the holder does not change, and it is queued already. -/
theorem Tidy.stayLocked (h : Tidy k) (hs : (k.proc p).state = .RUNNABLE)
    (hown : LinkedIn k (k.proc p).level p)
    (hlow : ¬ ((k.proc p).level < 2 ∧ (k.proc p).timeAllotment ≥ (k.proc p).timeQuantum)) :
    ∃ k', (do requeue (← Mlfq.changeLevel k p) p) = .ok k' ∧ Tidy k' ∧ SameGlobals k k' ∧
      Keeps k k' ∧ (k'.proc p).level = (k.proc p).level ∧ (k'.proc p).state = .RUNNABLE := by
  have hflag : (k.proc p).alreadyEnqueued = true :=
    h.queued_iff.mp ⟨_, Nat.lt_succ_of_le (h.level p), hown⟩
  obtain ⟨f, hrun, hf⟩ : ∃ f : Proc → Proc, Mlfq.changeLevel k p = .ok (k.setProc p f) ∧
      ∀ q, (f q).next = q.next ∧ (f q).alreadyEnqueued = q.alreadyEnqueued ∧
        (f q).level = q.level ∧ (f q).state = q.state := by
    rw [Mlfq.changeLevel, if_neg hlow]
    split
    · exact ⟨_, rfl, fun _ => ⟨rfl, rfl, rfl, rfl⟩⟩
    · refine ⟨id, ?_, fun _ => ⟨rfl, rfl, rfl, rfl⟩⟩
      rw [Kernel.setProc, id, Function.update_eq_self]
  have hself := setProc_proc_self k p f
  refine ⟨k.setProc p f, ?_, h.setProc (fun q => ⟨(hf q).1, (hf q).2.1⟩) ?_, .setProc k p f,
    .setProc k p fun q => ⟨(hf q).1, (hf q).2.1⟩, ?_, ?_⟩
  · rw [hrun, ok_bind, requeue, if_pos (by rw [hself, (hf _).2.2.2]; exact hs)]
    exact enqueue_of_flag (by rw [hself, (hf _).2.1]; exact hflag)
  · rw [(hf _).2.2.1]
    exact h.level p
  · rw [hself, (hf _).2.2.1]
  · rw [hself, (hf _).2.2.2]
    exact hs

/-- The holder moves to the end of the next queue. -/
theorem Tidy.moveLocked (h : Tidy k) (hlocked : k.schedulerLocked = true)
    (hs : (k.proc p).state = .RUNNABLE) (hown : LinkedIn k (k.proc p).level p)
    (hlow : (k.proc p).level < 2 ∧ (k.proc p).timeAllotment ≥ (k.proc p).timeQuantum) :
    ∃ k', (do requeue (← Mlfq.changeLevel k p) p) = .ok k' ∧ Tidy k' ∧ SameGlobals k k' ∧
      (∀ i, (k'.proc i).alreadyEnqueued = true ↔ (k.proc i).alreadyEnqueued = true ∨ i = p) ∧
      (k'.proc p).level = (k.proc p).level + 1 ∧ LinkedIn k' ((k.proc p).level + 1) p ∧
      (k'.proc p).state = .RUNNABLE := by
  obtain ⟨d, hd, htidy, hsame, -, hflag⟩ := h.dequeueOwn hown
  let f : Proc → Proc := fun q =>
    { q with level := q.level + 1, timeQuantum := 2 * (q.level + 1) + 4, timeAllotment := 0 }
  have hchange : Mlfq.changeLevel k p = .ok (d.setProc p f) := by
    rw [Mlfq.changeLevel, if_pos hlow, leaveLevel, if_pos hlocked, hd]
    rfl
  have hlevel : (f (d.proc p)).level = (k.proc p).level + 1 := by
    show (d.proc p).level + 1 = _
    rw [hsame.level_eq]
  have hself := setProc_proc_self d p f
  have hout : ((d.setProc p f).proc p).alreadyEnqueued = false := by
    rw [hself, Bool.eq_false_iff, ne_eq]
    exact fun hp => ((hflag p).mp hp).2 rfl
  have htidy' : Tidy (d.setProc p f) :=
    htidy.setProc (fun _ => ⟨rfl, rfl⟩) (by rw [hlevel]; omega)
  have hs' : ((d.setProc p f).proc p).state = .RUNNABLE := by
    rw [hself]
    exact (hsame.state_eq p).trans hs
  obtain ⟨k', hk', htidy'', hsame', hflag'⟩ :=
    htidy'.enqueue (p := p) (l := (k.proc p).level + 1) (by omega)
  refine ⟨k', ?_, htidy'', (hsame.toSameGlobals.trans (.setProc d p f)).trans hsame'.toSameGlobals,
    fun i => ?_, ?_, htidy'.enqueue_linkedIn hout hk', ?_⟩
  · rw [hchange, ok_bind, requeue, if_pos hs', hself, hlevel]
    exact hk'
  · rw [hflag']
    by_cases hi : i = p
    · simp [hi]
    · rw [setProc_proc_of_ne _ _ _ _ hi, hflag]
      simp [hi]
  · rw [hsame'.level_eq, hself, hlevel]
  · rw [hsame'.state_eq, hs']

theorem Tidy.tickLocked (h : Tidy k) (hown : LinkedIn k (k.proc p).level p)
    (hlocked : k.schedulerLocked = true) (hcpu : k.cpuProc = some p) (hsched : k.schedP = some p)
    (hs : (k.proc p).state = .RUNNING) (hdue : k.globalTick + 1 < 100) :
    ∃ k', Mlfq.tick k false = .ok k' ∧ HolderBack k k' p := by
  have h₀ : Tidy { k with globalTick := k.globalTick + 1 } :=
    h.congr (fun i => ⟨rfl, rfl, h.level i⟩) rfl
  obtain ⟨k₁, hk₁, hwoken⟩ := h₀.wakeup1 (some .ticks)
  have hs₁ : (k₁.proc p).state = .RUNNING := (wakeup1_running hk₁ p).mpr hs
  have hcpu₁ : k₁.cpuProc = some p := hwoken.cpuProc.trans hcpu
  have hkeeps₁ : Keeps k k₁ := ⟨(Keeps.wakeup1 hk₁).flag, (Keeps.wakeup1 hk₁).next,
    (Keeps.wakeup1 hk₁).head⟩
  have hrank₁ : (k₁.proc p).level = (k.proc p).level :=
    congrArg Rank.level (congrFun (wakeup1_rank hk₁) p)
  -- the interrupt charges the process and makes it `RUNNABLE`
  let f : Proc → Proc := fun q => { q with timeAllotment := q.timeAllotment + 1 }
  let g : Proc → Proc := fun q => { q with state := .RUNNABLE }
  let b : Kernel := { (k₁.setProc p f).setProc p g with cpuProc := none }
  have hself : b.proc p = g (f (k₁.proc p)) := by
    show ((k₁.setProc p f).setProc p g).proc p = g (f (k₁.proc p))
    rw [setProc_proc_self, setProc_proc_self]
  have hkeeps : Keeps k₁ b := by
    have hf : Keeps k₁ (k₁.setProc p f) := .setProc k₁ p fun _ => ⟨rfl, rfl⟩
    have hg : Keeps (k₁.setProc p f) ((k₁.setProc p f).setProc p g) :=
      .setProc _ p fun _ => ⟨rfl, rfl⟩
    exact ⟨(hf.trans hg).flag, (hf.trans hg).next, (hf.trans hg).head⟩
  have hb : Tidy b := by
    have hf : Tidy (k₁.setProc p f) := hwoken.tidy.setProc (fun _ => ⟨rfl, rfl⟩) (hwoken.tidy.level p)
    have hg : Tidy ((k₁.setProc p f).setProc p g) := hf.setProc (fun _ => ⟨rfl, rfl⟩) (hf.level p)
    exact hg.congr (fun i => ⟨rfl, rfl, hg.level i⟩) rfl
  have hlevel : (b.proc p).level = (k.proc p).level := by rw [hself]; exact hrank₁
  have hlt : (k.proc p).level < 3 := Nat.lt_succ_of_le (h.level p)
  have hownb : LinkedIn b (b.proc p).level p := by
    rw [hlevel]
    exact hkeeps.linkedIn hwoken.tidy hlt (hkeeps₁.linkedIn h hlt hown)
  have hsb : (b.proc p).state = .RUNNABLE := by rw [hself]
  have hlockedb : b.schedulerLocked = true := hwoken.schedulerLocked.trans hlocked
  -- the rest of the round
  have hround : ∀ k', (do requeue (← Mlfq.changeLevel b p) p) = .ok k' → SameGlobals b k' →
      Mlfq.tick k false = .ok k' := by
    intro k' hrun hsame
    obtain ⟨c, hc, hrun⟩ := bind_eq_ok.mp hrun
    have hforget : forgetP k' = k' := by
      rw [forgetP, if_pos (hsame.schedulerLocked.trans hlockedb)]
    have hnot : ¬ k'.globalTick ≥ 100 := by
      have htick : k'.globalTick = k.globalTick + 1 := hsame.globalTick.trans hwoken.globalTick
      omega
    rw [Mlfq.tick, hk₁, ok_bind]
    simp only [hcpu₁]
    rw [if_pos hs₁, if_neg (by simp), yield]
    refine schedReturn_eq_ok.mpr ⟨b, c, k', ?_, hc, hrun, ?_⟩
    · rw [giveUpLock, if_neg]
      exact fun hno => hno.2 hsb
    · rw [hforget, Mlfq.boostIfDue, if_neg hnot]
  have hschedb : b.schedP = some p := hwoken.schedP.trans hsched
  by_cases hlow : (b.proc p).level < 2 ∧ (b.proc p).timeAllotment ≥ (b.proc p).timeQuantum
  · obtain ⟨k', hrun, htidy, hsame, hflag, hl, hlink, hs'⟩ := hb.moveLocked hlockedb hsb hownb hlow
    refine ⟨k', hround k' hrun hsame, htidy, by rw [hl]; exact hlink,
      hsame.schedulerLocked.trans hlockedb, hsame.cpuProc, hsame.schedP.trans hschedb, hs',
      fun i hi => (hflag i).mpr (.inl (hkeeps.flag i (hkeeps₁.flag i hi))), .inr ?_⟩
    rw [hl, hlevel]
    omega
  · obtain ⟨k', hrun, htidy, hsame, hkeeps', hl, hs'⟩ := hb.stayLocked hsb hownb hlow
    have hall : Keeps k k' := (hkeeps₁.trans hkeeps).trans hkeeps'
    have hlk : (k'.proc p).level = (k.proc p).level := hl.trans hlevel
    refine ⟨k', hround k' hrun hsame, htidy, by rw [hlk]; exact hall.linkedIn h hlt hown,
      hsame.schedulerLocked.trans hlockedb, hsame.cpuProc, hsame.schedP.trans hschedb, hs',
      hall.flag, .inl ⟨fun a ha hl => hall.linked h ha hl, hlk⟩⟩

end Xv6.Mlfq
