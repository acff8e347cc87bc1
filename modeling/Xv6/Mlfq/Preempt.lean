import Xv6.Mlfq.Interrupt
import Xv6.Mlfq.Unlock

namespace Xv6.Mlfq

open Xv6.Lib Relation
open Tidy (CallFrame Headed Dispatched)

/-!
# MLFQ scheduler — a timer interrupt inside `schedulerUnlock`

A process that holds the scheduler lock and is queued calls `schedulerUnlock`, and a timer interrupt
comes between two assignments of the call: the caller yields, `scheduler()` puts it back, and when it
is dispatched again the call goes on with the local variables it had.

* `Harmless` — the caller is put back and, whenever it is dispatched, the call ends with queues that
  are in order and hold the processes they would hold had the interrupt come before or after it;
* `SafePoint` — the places of the call at which an interrupt does no harm;
* `preempted_unlock` — these are exactly the harmless ones;
* `preempted_unlock_loses` — an interrupt that loses a process.
-/

variable {k k' k₁ k₂ k₃ : Kernel} {p x : Slot} {pt : Point}

/-! ### The interrupted call -/

/-- The queues when the interrupt comes wholly before the call, or wholly after it and the caller
    has been put back or has been dispatched again.  A boost under the lock leaves broken queues
    and is no reference. -/
inductive Reference (k : Kernel) (p : Slot) : Kernel → Prop
  | before {k₁ k₂ k' : Kernel} : k.globalTick + 1 < 100 → tick k false = .ok k₁ →
      Rounds p k₁ k₂ → schedulerUnlock k₂ p schedPassword = .ok k' → Reference k p k'
  | after {k₁ k' : Kernel} : schedulerUnlock k p schedPassword = .ok k₁ →
      tick k₁ false = .ok k' → Reference k p k'
  | resumed {k₁ k₂ k' : Kernel} : schedulerUnlock k p schedPassword = .ok k₁ →
      tick k₁ false = .ok k₂ → Rounds p k₂ k' → Reference k p k'

/-- The three queues are finite lists, and no process is in two of them. -/
def Intact (k : Kernel) : Prop :=
  ∃ q : Nat → List Slot, ∀ l < 3, Chain k.next (k.levelQueue l) (q l) ∧ (q l).Nodup ∧
    ∀ l' < 3, l ≠ l' → (q l).Disjoint (q l')

/-- An interrupt at the point does no harm to the call that was made in the state `k`. -/
def Harmless (k : Kernel) (p : Slot) (k₁ : Kernel) (pt : Point) : Prop :=
  ∃ k₂, tick k₁ false = .ok k₂ ∧ Queued k₂ p ∧ ∀ k₃, Rounds p k₂ k₃ →
    ∃ k', UnlockRun k₃ pt k' ∧ Intact k' ∧ ∃ r, Reference k p r ∧ ∀ x, Queued k' x ↔ Queued r x

/-- The call has come to the point. -/
def InCall (k k₁ : Kernel) (pt : Point) : Prop :=
  ReflTransGen UnlockStep (k, unlockStart k) (k₁, pt)

/-- The queues are in order, and `p` is in the queue of its level. -/
def InOrder (k : Kernel) (p : Slot) : Prop := Tidy k ∧ LinkedIn k (k.proc p).level p

/-- The places at which an interrupt does no harm.  The condition at the places at which the caller
    is about to be linked or unlinked is about the queues when the call goes on. -/
def SafePoint (k₁ : Kernel) (p : Slot) : Point → Prop
  | .search _ _ | .found _ => k₁.globalTick + 1 < 100
  | .unlocked _ | .cleared _ | .push _ | .done => True
  | .walk _ l prev cur => cur = some p → ∀ k₂ k₃, tick k₁ false = .ok k₂ → Rounds p k₂ k₃ →
      match prev with
      | some y => k₃.next y = none
      | none => k₃.levelQueue l = none
  | .clearNext _ | .clearFlag _ => False
  | .setHead _ => ∀ k₂ k₃, tick k₁ false = .ok k₂ → Rounds p k₂ k₃ → k₃.levelQueue 0 = none
  | .setLevel _ | .setAllotment _ | .setQuantum _ | .setFlag _ =>
    (∀ k₂, wakeup1 { k₁ with globalTick := k₁.globalTick + 1 } (some .ticks) = .ok k₂ →
      k₂.next p = none) ∧
    ((k₁.rank p).charged.aged.level = 0 ∨ k₁.globalTick + 1 < 100)

theorem Tidy.intact (h : Tidy k) : Intact k := by
  obtain ⟨q, hQ, _⟩ := h.queues
  exact ⟨q, fun l _ => ⟨hQ.chain l, (hQ.chain l).nodup, fun l' _ hne => hQ.disjoint l l' hne⟩⟩

/-! ### The call and what it is compared with -/

/-- A running process that holds the scheduler lock and is in the queue of its level. -/
structure Caller (k : Kernel) (p : Slot) : Prop where
  inOrder : InOrder k p
  lockInv : LockInv k
  locked : k.schedulerLocked = true
  cpuProc : k.cpuProc = some p
  running : (k.proc p).state = .RUNNING

namespace Caller

theorem tidy (h : Caller k p) : Tidy k := h.inOrder.1

theorem own (h : Caller k p) : LinkedIn k (k.proc p).level p := h.inOrder.2

theorem queued (h : Caller k p) : Queued k p :=
  ⟨_, Nat.lt_succ_of_le (h.tidy.level p), h.own⟩

theorem flag (h : Caller k p) : (k.proc p).alreadyEnqueued = true :=
  h.tidy.queued_iff.mp h.queued

theorem holder (h : Caller k p) : (k.proc p).lockScheduler = true := by
  obtain ⟨x, hx, hheld⟩ := h.lockInv.held h.locked
  rw [h.lockInv.onCpu p h.cpuProc] at hx
  rwa [Option.some.inj hx]

/-- Without an interrupt the call puts `p` at the head of `level_queue[0]`. -/
theorem unlock (h : Caller k p) : ∃ k', schedulerUnlock k p schedPassword = .ok k' ∧
    CallFrame k k' p ∧ Tidy k' ∧ k'.schedulerLocked = false ∧
    (k'.proc p).alreadyEnqueued = true ∧ k'.levelQueue 0 = some p := by
  obtain ⟨k', hrun, hrest⟩ := h.tidy.unlockFound h.running h.own
  refine ⟨k', ?_, hrest⟩
  rw [schedulerUnlock, if_neg (by simp [h.locked]), if_pos rfl, unlockHolder,
    if_neg (by simp [h.locked]), h.tidy.findHolder h.lockInv h.holder h.queued]
  exact hrun

/-- The queues when the interrupt comes after the call. -/
theorem after (h : Caller k p) : ∃ k₁ k', schedulerUnlock k p schedPassword = .ok k₁ ∧
    tick k₁ false = .ok k' ∧ Interrupted k₁ k' p ∧ k'.levelQueue 0 = some p ∧
    ∀ x, (k'.proc x).alreadyEnqueued = true ↔
      (k.proc x).alreadyEnqueued = true ∨ SleepsOn k (some .ticks) x := by
  obtain ⟨k₁, hrun, hframe, htidy, hfree, hflag, hhead⟩ := h.unlock
  have hcpu : k₁.cpuProc = some p := hframe.cpuProc.trans h.cpuProc
  have hs : (k₁.proc p).state = .RUNNING := (hframe.state p).trans h.running
  obtain ⟨k', htick, hint⟩ := htidy.tick hfree hcpu hs
  refine ⟨k₁, k', hrun, htick, hint, hint.head p hhead, fun x => ?_⟩
  rw [hint.flag, hframe.sleepsOn]
  by_cases hx : x = p
  · subst hx
    simp [h.flag]
  · rw [hframe.flag x hx]
    simp [hx]

theorem reference_after (h : Caller k p) : ∃ r, Reference k p r ∧
    ∀ x, Queued r x ↔ (k.proc x).alreadyEnqueued = true ∨ SleepsOn k (some .ticks) x := by
  obtain ⟨k₁, k', hrun, htick, hint, -, hflag⟩ := h.after
  exact ⟨k', .after hrun htick, fun x => hint.tidy.queued_iff.trans (hflag x)⟩

theorem reference_resumed (h : Caller k p) : ∃ r, Reference k p r ∧ ∀ x, Queued r x ↔
    ((k.proc x).alreadyEnqueued = true ∨ SleepsOn k (some .ticks) x) ∧ x ≠ p := by
  obtain ⟨k₁, k₂, hrun, htick, hint, hhead, hflag⟩ := h.after
  obtain ⟨k', hrounds⟩ := hint.tidy.rounds_head hint.free hint.cpuProc hint.runnable hhead
  have hdisp := hint.tidy.rounds hint.free hrounds
  refine ⟨k', .resumed hrun htick hrounds, fun x => ?_⟩
  rw [hdisp.tidy.queued_iff, hdisp.flag, hflag]

/-- An interrupt while the queues are in order does no harm when the rest of the call puts `p` at
    the head of `level_queue[0]`. -/
theorem harmless (h : Caller k p) (hframe : CallFrame k k₁ p) (htidy : Tidy k₁)
    (hfree : k₁.schedulerLocked = false)
    (hrest : ∀ k₂ k₃, tick k₁ false = .ok k₂ → Interrupted k₁ k₂ p → Rounds p k₂ k₃ →
      Dispatched k₂ k₃ p → ∃ k', UnlockRun k₃ pt k' ∧ Headed k₃ k' p) : Harmless k p k₁ pt := by
  have hcpu : k₁.cpuProc = some p := hframe.cpuProc.trans h.cpuProc
  have hs : (k₁.proc p).state = .RUNNING := (hframe.state p).trans h.running
  obtain ⟨k₂, htick, hint⟩ := htidy.tick hfree hcpu hs
  refine ⟨k₂, htick, hint.tidy.queued_iff.mpr ((hint.flag p).mpr (.inr (.inr rfl))),
    fun k₃ hrounds => ?_⟩
  have hdisp := hint.tidy.rounds hint.free hrounds
  obtain ⟨k', hrun, hhead⟩ := hrest k₂ k₃ htick hint hrounds hdisp
  obtain ⟨r, hr, hqueued⟩ := h.reference_after
  refine ⟨k', hrun, hhead.tidy.intact, r, hr, fun x => ?_⟩
  rw [hqueued, hhead.tidy.queued_iff]
  by_cases hx : x = p
  · subst hx
    simp [hhead.queued, h.flag]
  · rw [hhead.flag x hx, hdisp.flag, hint.flag, hframe.flag x hx, hframe.sleepsOn]
    simp [hx]

end Caller

/-! ### The states of the call -/

section

variable (k : Kernel) (p : Slot) (r : Option Slot)

/-- The queues when `dequeue_specific` has unlinked the caller. -/
def unlinked : Kernel := unlinkBehind (clearLock k p) p (k.proc p).level r

/-- The queues when `dequeue_specific` is done with the caller. -/
def dequeued : Kernel :=
  (unlinked k p r).setProc p fun q => { q with next := none, alreadyEnqueued := false }

/-- The points behind the assignment to `level_queue[0]`. -/
def Point.isField (p : Slot) : Point → Prop
  | .setLevel x | .setAllotment x | .setQuantum x | .setFlag x => x = p
  | _ => False

/-- The states and points of the call; `r` is what the loop of `dequeue_specific` finds. -/
inductive At : Kernel → Point → Prop
  | search (l : Nat) (us : List Slot) (cur : Option Slot) : l < 3 →
      Seg k.next (k.levelQueue l) us cur →
      (Linked k.next cur p ∨ ∃ l', l < l' ∧ l' < 3 ∧ LinkedIn k l' p) → At k (.search l cur)
  | found : At k (.found p)
  | unlocked : At { k with schedulerLocked := false } (.unlocked p)
  | cleared : At (clearLock k p) (.cleared p)
  | walk (n : Nat) (prev cur : Option Slot) :
      walkPrev (clearLock k p).next p n prev cur = some (some r) →
      (∀ x, cur = some x → Queued k x) → At (clearLock k p) (.walk p (k.proc p).level prev cur)
  | clearNext : At (unlinked k p r) (.clearNext p)
  | clearFlag : At ((unlinked k p r).setProc p fun q => { q with next := none }) (.clearFlag p)
  | push : At (dequeued k p r) (.push p)
  | setHead : At ((dequeued k p r).setProc p fun q =>
      { q with next := (dequeued k p r).levelQueue 0 }) (.setHead p)
  | setField (pt : Point) (f : Proc → Proc) : pt.isField p →
      (∀ q, (f q).next = (dequeued k p r).levelQueue 0 ∧ (f q).state = q.state ∧
        (f q).chan = q.chan ∧ (f q).alreadyEnqueued = q.alreadyEnqueued ∧
        ((f q).level = q.level ∨ (f q).level = 0)) →
      At (((dequeued k p r).setProc p f).setQueue 0 (some p)) pt

end

theorem unlinkBehind_frame (k : Kernel) (p : Slot) (l : Nat) (r : Option Slot) :
    SameButLinks k (unlinkBehind k p l r) := by
  cases r with
  | none => exact .setQueue k l _
  | some y => exact .setProc (f := fun q => { q with next := k.next p }) k y fun _ => rfl

theorem dequeued_frame (k : Kernel) (p : Slot) (r : Option Slot) :
    CallFrame k (dequeued k p r) p := by
  have hlinks := unlinkBehind_frame (clearLock k p) p (k.proc p).level r
  have hflag : ∀ i, ((unlinked k p r).proc i).alreadyEnqueued =
      ((clearLock k p).proc i).alreadyEnqueued := fun i => by
    rw [unlinked]
    cases r with
    | none => rfl
    | some y =>
      by_cases hiy : i = y
      · subst hiy
        rw [unlinkBehind, setProc_proc_self]
      · rw [unlinkBehind, setProc_proc_of_ne _ _ _ _ hiy]
  exact ((CallFrame.clearLock k p).trans (.of_links hlinks fun i _ => hflag i)).trans
    (.setProc _ p fun _ => ⟨rfl, rfl⟩)

namespace At

variable {r : Option Slot}

/-- A further assignment to a field of the caller. -/
theorem field {f g : Proc → Proc} (hf : ∀ q, (f q).next = (dequeued k p r).levelQueue 0 ∧
      (f q).state = q.state ∧ (f q).chan = q.chan ∧ (f q).alreadyEnqueued = q.alreadyEnqueued ∧
        ((f q).level = q.level ∨ (f q).level = 0))
    (hg : ∀ q, (g q).next = q.next ∧ (g q).state = q.state ∧ (g q).chan = q.chan ∧
      (g q).alreadyEnqueued = q.alreadyEnqueued ∧ ((g q).level = q.level ∨ (g q).level = 0))
    (hpt : pt.isField p) :
    At k p r ((((dequeued k p r).setProc p f).setQueue 0 (some p)).setProc p g) pt := by
  rw [setProc_setQueue, setProc_setProc]
  refine .setField pt _ hpt fun q => ⟨?_, ?_, ?_, ?_, ?_⟩
  · exact (hg _).1.trans (hf q).1
  · exact (hg _).2.1.trans (hf q).2.1
  · exact (hg _).2.2.1.trans (hf q).2.2.1
  · exact (hg _).2.2.2.1.trans (hf q).2.2.2.1
  · rcases (hg (f q)).2.2.2.2 with heq | h0
    · rw [heq]
      exact (hf q).2.2.2.2
    · exact .inr h0

/-- One assignment of the call. -/
theorem step (h : Caller k p)
    (hr : walkPrev (clearLock k p).next p NPROC none ((clearLock k p).levelQueue (k.proc p).level) =
      some (some r)) (hat : At k p r k₁ pt) :
    (unlockStep k₁ pt).2 = .done ∨ At k p r (unlockStep k₁ pt).1 (unlockStep k₁ pt).2 := by
  have hclear : ∀ i, (clearLock k p).next i = k.next i := fun i => by
    rw [(clearLock_linkedIn k p).1]
  have hself : (clearLock k p).proc p = { k.proc p with lockScheduler := false } :=
    setProc_proc_self ..
  cases hat with
  | search l us cur hl hseg hp =>
    cases cur with
    | none =>
      rw [unlockStep]
      split
      · rename_i hl'
        obtain ⟨l', hlt, hl'', hlink⟩ := hp.resolve_left fun hp => by cases hp
        refine .inr (.search (l + 1) [] _ hl' (.nil _) ?_)
        rcases Nat.eq_or_lt_of_le (Nat.succ_le_of_lt hlt) with rfl | hlt
        · exact .inl hlink
        · exact .inr ⟨l', hlt, hl'', hlink⟩
      · exact .inl rfl
    | some x =>
      rw [unlockStep]
      split
      · rename_i hx
        have hxp := (h.lockInv.holder x hx).2
        rw [(h.lockInv.holder p h.holder).2] at hxp
        cases hxp
        exact .inr .found
      · rename_i hx
        refine .inr (.search l (us ++ [x]) _ hl ?_ (hp.imp_left fun hp => ?_))
        · exact seg_append_iff.mpr ⟨some x, hseg, .cons x [] _ (.nil _)⟩
        · cases hp with
          | here => exact absurd h.holder hx
          | there _ _ hp => exact hp
  | found => exact .inr .unlocked
  | unlocked => exact .inr .cleared
  | cleared =>
    have hcond : ((clearLock k p).proc p).state ≠ .RUNNABLE ∧
        ((clearLock k p).proc p).alreadyEnqueued = true := by
      rw [hself]
      exact ⟨by simp [h.running], h.flag⟩
    rw [unlockStep, if_pos hcond, hself]
    refine .inr (.walk NPROC none _ hr fun x hx => ?_)
    have hlevel : (k.proc p).level < 3 := by
      have := h.tidy.level p
      omega
    refine ⟨_, hlevel, ?_⟩
    have hx : k.levelQueue (k.proc p).level = some x := hx
    rw [LinkedIn, hx]
    exact .here x
  | walk n prev cur hw hcur =>
    cases cur with
    | none =>
      have hnone : walkPrev (clearLock k p).next p n prev none = some none := by
        cases n <;> rfl
      rw [hnone] at hw
      cases hw
    | some x =>
      cases n with
      | zero => cases hw
      | succ n =>
        rw [walkPrev] at hw
        rw [unlockStep]
        split
        · rename_i hxp
          rw [if_pos hxp] at hw
          cases hw
          exact .inr .clearNext
        · rename_i hxp
          rw [if_neg hxp] at hw
          refine .inr (.walk n (some x) _ hw fun y hy => ?_)
          obtain ⟨l, hl, hlink⟩ := hcur x rfl
          rw [hclear] at hy
          exact ⟨l, hl, Linked.step hlink hy⟩
  | clearNext => exact .inr .clearFlag
  | clearFlag =>
    rw [unlockStep, setProc_setProc]
    exact .inr .push
  | push =>
    have hs : ((dequeued k p r).proc p).state = .RUNNING :=
      ((dequeued_frame k p r).state p).trans h.running
    rw [unlockStep, if_pos (.inr hs)]
    exact .inr .setHead
  | setHead =>
    rw [unlockStep]
    exact .inr (.setField _ _ rfl fun q => ⟨rfl, rfl, rfl, rfl, .inl rfl⟩)
  | setField pt f hpt hf =>
    cases pt with
    | setLevel x =>
      cases hpt
      exact .inr (field (g := fun q => { q with level := 0 }) hf
        (fun _ => ⟨rfl, rfl, rfl, rfl, .inr rfl⟩) rfl)
    | setAllotment x =>
      cases hpt
      exact .inr (field (g := fun q => { q with timeAllotment := 0 }) hf
        (fun _ => ⟨rfl, rfl, rfl, rfl, .inl rfl⟩) rfl)
    | setQuantum x =>
      cases hpt
      exact .inr (field (g := fun q => { q with timeQuantum := 2 * q.level + 4 }) hf
        (fun _ => ⟨rfl, rfl, rfl, rfl, .inl rfl⟩) rfl)
    | setFlag x => exact .inl rfl
    | _ => exact hpt.elim

end At

/-- Every state and point of the call. -/
theorem Caller.at (h : Caller k p) (hcall : InCall k k₁ pt) (hpt : pt ≠ .done) :
    ∃ r, dequeueSpecific (clearLock k p) (k.proc p).level p = .ok (dequeued k p r) ∧
      At k p r k₁ pt := by
  obtain ⟨q, hQ, -⟩ := h.tidy.queues
  -- the loop of `dequeue_specific` finds the caller
  have hmem : p ∈ q (k.proc p).level := hQ.linkedIn_iff.mp h.own
  obtain ⟨us, vs, hq⟩ := List.append_of_mem hmem
  have hc := hQ.chain (k.proc p).level
  rw [hq] at hc
  have hlen := hQ.length_le (k.proc p).level
  rw [hq] at hlen
  have hwalk : walkPrev (clearLock k p).next p NPROC none
      ((clearLock k p).levelQueue (k.proc p).level) = some (some (us.getLast?.or none)) := by
    rw [(clearLock_linkedIn k p).1]
    exact walkPrev_eq_some hc hlen
  refine ⟨us.getLast?.or none, ?_, ?_⟩
  · have hflag : ((clearLock k p).proc p).alreadyEnqueued = true := by
      rw [clearLock, setProc_proc_self]
      exact h.flag
    rw [dequeueSpecific, if_neg (by simp [hflag]), hwalk]
    cases us.getLast?.or none <;> rfl
  · have hrun : ∀ s : Kernel × Point, ReflTransGen UnlockStep (k, unlockStart k) s →
        s.2 = .done ∨ At k p (us.getLast?.or none) s.1 s.2 := fun s hs => by
      induction hs with
      | refl =>
        rw [unlockStart, if_neg (by simp [h.locked])]
        obtain ⟨l, hl, hlink⟩ := h.queued
        refine .inr (.search 0 [] _ (by omega) (.nil _) ?_)
        rcases Nat.eq_zero_or_pos l with rfl | h0
        · exact .inl hlink
        · exact .inr ⟨l, h0, hl, hlink⟩
      | tail _ hstep ih =>
        obtain ⟨hne, rfl⟩ := hstep
        exact (ih.resolve_left hne).step h hwalk
    exact (hrun _ hcall).resolve_left hpt

/-! ### The rest of the call when the caller is not queued -/

/-- A running process that is in no queue, while the queues are in order. -/
structure Outside (k : Kernel) (p : Slot) : Prop where
  tidy : Tidy k
  running : (k.proc p).state = .RUNNING
  flag : (k.proc p).alreadyEnqueued = false

theorem Tidy.Dispatched.outside (h : Dispatched k k' p) : Outside k' p := by
  refine ⟨h.tidy, h.running, ?_⟩
  rw [Bool.eq_false_iff, ne_eq, h.flag]
  exact fun hp => hp.2 rfl

namespace Outside

theorem push (h : Outside k p) : ∃ k', UnlockRun k (.push p) k' ∧ Headed k k' p :=
  ⟨_, unlockRun_push_iff.mpr rfl, h.tidy.pushHead h.running h.flag⟩

/-- Assignments to fields of a process that is not queued. -/
theorem setProc (h : Outside k p) {f : Proc → Proc}
    (hf : ∀ q, (f q).state = q.state ∧ (f q).chan = q.chan ∧ (f q).level = q.level)
    (hflag : (f (k.proc p)).alreadyEnqueued = false) : Outside (k.setProc p f) p := by
  refine ⟨h.tidy.setProc_out h.flag hflag ?_, ?_, ?_⟩
  · rw [(hf _).2.2]
    exact h.tidy.level p
  · rw [setProc_proc_self, (hf _).1]
    exact h.running
  · rw [setProc_proc_self]
    exact hflag

theorem headed_setProc {f : Proc → Proc} (h : Headed (k.setProc p f) k' p)
    (hf : ∀ q, (f q).state = q.state ∧ (f q).chan = q.chan) : Headed k k' p :=
  ⟨(CallFrame.setProc k p hf).trans h.toCallFrame, h.tidy, h.free, h.queued, h.head⟩

theorem cleared (h : Outside k p) : ∃ k', UnlockRun k (.cleared p) k' ∧ Headed k k' p := by
  obtain ⟨k', hrun, hhead⟩ := h.push
  refine ⟨k', ?_, hhead⟩
  rw [unlockRun_iff (by simp), unlockStep, if_neg (by simp [h.flag])]
  exact hrun

theorem unlocked (h : Outside k p) : ∃ k', UnlockRun k (.unlocked p) k' ∧ Headed k k' p := by
  have hset : Outside (k.setProc p fun q => { q with lockScheduler := false }) p :=
    h.setProc (fun _ => ⟨rfl, rfl, rfl⟩) h.flag
  obtain ⟨k', hrun, hhead⟩ := hset.cleared
  refine ⟨k', ?_, headed_setProc hhead fun _ => ⟨rfl, rfl⟩⟩
  rw [unlockRun_iff (by simp), unlockStep]
  exact hrun

/-- The loop of `dequeue_specific` does not meet a process that is not queued. -/
theorem walk (h : Outside k p) {l : Nat} {prev cur : Option Slot}
    (hcur : ∀ x, cur = some x → Queued k x) :
    ∃ k', UnlockRun k (.walk p l prev cur) k' ∧ Headed k k' p := by
  obtain ⟨k', hrun, hhead⟩ := h.push
  refine ⟨k', ?_, hhead⟩
  have hwalk : walkPrev k.next p NPROC prev cur = some none := by
    cases cur with
    | none => rfl
    | some x =>
      obtain ⟨xs, hc, hlen, hmem⟩ := h.tidy.chainFrom (hcur x rfl)
      refine walkPrev_eq_none hc hlen fun hp => ?_
      have hflag := h.tidy.queued_iff.mp (hmem p hp)
      rw [h.flag] at hflag
      cases hflag
  exact (unlockRun_walk.1 hwalk).mpr hrun

/-- The loop stands at the process: nothing is behind it any more. -/
theorem walkHere (h : Outside k p) (hnext : k.next p = none) {l : Nat} {prev : Option Slot}
    (hend : match prev with
      | some y => k.next y = none
      | none => k.levelQueue l = none) :
    ∃ k', UnlockRun k (.walk p l prev (some p)) k' ∧ Headed k k' p := by
  have hunlink : unlinkBehind k p l prev = k := by
    cases prev with
    | none =>
      rw [unlinkBehind, hnext, ← hend]
      exact congrArg (fun f => { k with levelQueue := f }) (Function.update_eq_self l k.levelQueue)
    | some y =>
      have hy : { k.proc y with next := k.next p } = k.proc y := by
        rw [hnext, ← hend]
        rfl
      rw [unlinkBehind, Kernel.setProc, hy, Function.update_eq_self]
  have hset : Outside (k.setProc p fun q => { q with next := none, alreadyEnqueued := false }) p :=
    h.setProc (fun _ => ⟨rfl, rfl, rfl⟩) rfl
  have hhead := hset.tidy.pushHead hset.running hset.flag
  refine ⟨_, ?_, headed_setProc hhead fun _ => ⟨rfl, rfl⟩⟩
  rw [unlockRun_iff (by simp), unlockStep, if_pos rfl, hunlink]
  exact unlockRun_clearNext_iff.mpr rfl

/-- `level_queue[0]` is empty when it is overwritten. -/
theorem setHead (h : Outside k p) (hnext : k.next p = none) (hend : k.levelQueue 0 = none) :
    ∃ k', UnlockRun k (.setHead p) k' ∧ Headed k k' p := by
  refine ⟨_, unlockRun_setHead_iff.mpr ?_, h.tidy.pushHead h.running h.flag⟩
  have hproc : headed (k.proc p) = { headed (k.proc p) with next := k.levelQueue 0 } := by
    rw [hend, ← hnext]
    rfl
  rw [Mlfq.pushHead, if_pos (.inr h.running), Kernel.setProc, Kernel.setProc, hproc]
  rfl

end Outside

/-! ### The rest of the call behind the assignment to `level_queue[0]` -/

/-- The last assignments of the call set fields of the caller, the flag last. -/
theorem unlockRun_field (hpt : pt.isField p) : ∃ f : Proc → Proc, UnlockRun k pt (k.setProc p f) ∧
    ∀ q, (f q).next = q.next ∧ (f q).alreadyEnqueued = true ∧
      ((f q).level = q.level ∨ (f q).level = 0) := by
  cases pt with
  | setLevel x =>
    cases hpt
    exact ⟨headed, unlockRun_setLevel_iff.mpr rfl, fun _ => ⟨rfl, rfl, .inr rfl⟩⟩
  | setAllotment x =>
    cases hpt
    refine ⟨fun q =>
      { q with timeAllotment := 0, timeQuantum := 2 * q.level + 4, alreadyEnqueued := true }, ?_,
      fun _ => ⟨rfl, rfl, .inl rfl⟩⟩
    rw [unlockRun_iff (by simp), unlockStep, unlockRun_iff (by simp), unlockStep,
      unlockRun_iff (by simp), unlockStep, unlockRun_done_iff, setProc_setProc, setProc_setProc]
  | setQuantum x =>
    cases hpt
    refine ⟨fun q => { q with timeQuantum := 2 * q.level + 4, alreadyEnqueued := true }, ?_,
      fun _ => ⟨rfl, rfl, .inl rfl⟩⟩
    rw [unlockRun_iff (by simp), unlockStep, unlockRun_iff (by simp), unlockStep,
      unlockRun_done_iff, setProc_setProc]
  | setFlag x =>
    cases hpt
    refine ⟨fun q => { q with alreadyEnqueued := true }, ?_, fun _ => ⟨rfl, rfl, .inl rfl⟩⟩
    rw [unlockRun_iff (by simp), unlockStep, unlockRun_done_iff]
  | _ => exact hpt.elim

theorem setProc_next (k : Kernel) (p : Slot) {f : Proc → Proc} (hf : ∀ q, (f q).next = q.next) :
    (k.setProc p f).next = k.next := by
  funext i
  by_cases hi : i = p
  · subst hi
    rw [Kernel.next, setProc_proc_self, hf, Kernel.next]
  · rw [Kernel.next, setProc_proc_of_ne _ _ _ _ hi, Kernel.next]

/-- An interrupt before one of the last assignments does no harm when nobody else is in
    `level_queue[0]`, and the caller is not linked twice when a boost comes. -/
theorem Caller.harmless_field (h : Caller k p) (hframe : CallFrame k k₁ p) (hhalf : HalfLinked k₁ p)
    (hpt : pt.isField p)
    (hnext : ∀ k₂, wakeup1 { k₁ with globalTick := k₁.globalTick + 1 } (some .ticks) = .ok k₂ →
      k₂.next p = none)
    (hlevel : (k₁.rank p).charged.aged.level = 0 ∨ k₁.globalTick + 1 < 100) :
    Harmless k p k₁ pt := by
  obtain ⟨m, hback⟩ := hhalf.back
  obtain ⟨k₂, hwake, hm⟩ := hback.next
  have hn : m.next p = none := hm.trans (hnext k₂ hwake)
  by_cases h0 : (m.proc p).level = 0
  · obtain ⟨k₂, htick, hint⟩ := hback.levelZero hn h0
    refine ⟨k₂, htick, hint.tidy.queued_iff.mpr ((hint.flag p).mpr (.inr (.inr rfl))),
      fun k₃ hrounds => ?_⟩
    have hdisp := hint.tidy.rounds hint.free hrounds
    obtain ⟨f, hrun, hf⟩ := unlockRun_field (k := k₃) hpt
    obtain ⟨r, hr, hqueued⟩ := h.reference_resumed
    -- the flag is set although the caller is not queued
    have hlinks := setProc_next k₃ p fun q => (hf q).1
    refine ⟨_, hrun, ?_, r, hr, fun x => ?_⟩
    · rw [Intact, hlinks]
      exact hdisp.tidy.intact
    · have hsame : Queued (k₃.setProc p f) x ↔ Queued k₃ x := by
        rw [Queued, Queued]
        simp only [LinkedIn, hlinks, setProc_levelQueue]
      rw [hsame, hdisp.tidy.queued_iff, hdisp.flag, hint.flag, hqueued, hframe.sleepsOn]
      by_cases hx : x = p
      · simp [hx]
      · rw [hframe.flag x hx]
        simp [hx]
  · have hdue := hlevel.resolve_left fun hz => h0 (hback.level.trans hz)
    obtain ⟨k₂, htick, hq, hrest⟩ := hback.levelOther hn h0 hdue
    refine ⟨k₂, htick, hq, fun k₃ hrounds => ?_⟩
    obtain ⟨htidy, hflag⟩ := hrest k₃ hrounds
    obtain ⟨f, hrun, hf⟩ := unlockRun_field (k := k₃) hpt
    obtain ⟨r, hr, hqueued⟩ := h.reference_after
    have htidy' : Tidy (k₃.setProc p f) := by
      refine htidy.congr (fun i => ?_) rfl
      have hle := htidy.level i
      by_cases hi : i = p
      · subst hi
        rw [flagged_proc_self] at hle
        rw [setProc_proc_self, flagged_proc_self]
        refine ⟨(hf _).1, (hf _).2.1, ?_⟩
        rcases (hf (k₃.proc i)).2.2 with heq | heq
        · rwa [heq]
        · rw [heq]; exact Nat.zero_le 2
      · rw [flagged_proc_of_ne _ hi] at hle ⊢
        rw [setProc_proc_of_ne _ _ _ _ hi]
        exact ⟨rfl, rfl, hle⟩
    refine ⟨_, hrun, htidy'.intact, r, hr, fun x => ?_⟩
    rw [htidy'.queued_iff, hqueued]
    by_cases hx : x = p
    · subst hx
      rw [setProc_proc_self, (hf _).2.1]
      simp [h.flag]
    · rw [setProc_proc_of_ne _ _ _ _ hx, hflag x hx, hback.others x hx, hframe.flag x hx,
        hframe.sleepsOn]

/-! ### The search for the holder -/

/-- The process is dispatched again at once. -/
theorem HolderBack.rounds (h : HolderBack k k₂ p) (hr : Rounds p k₂ k₃) : schedule k₂ = .ok k₃ ∧
    k₃ = { k₂ with cpuProc := some p, schedP := some p }.setProc p fun q =>
      { q with state := .RUNNING, chan := none } := by
  have hpick : pick k₂ = .ok (some p, k₂) := by
    rw [pick, if_pos ⟨by simp [h.schedP], h.locked⟩, h.schedP]
  have hrun : schedule k₂ = .ok ({ k₂ with cpuProc := some p, schedP := some p }.setProc p fun q =>
      { q with state := .RUNNING, chan := none }) := by
    rw [schedule, if_neg (by simp [h.cpuProc]), hpick, ok_bind]
    simp only [h.runnable]
    rw [if_neg (by simp)]
  cases hr with
  | dispatched h₁ _ => exact ⟨h₁, Except.ok.inj (h₁.symm.trans hrun)⟩
  | other h₁ hx hne _ _ =>
    cases h₁.symm.trans hrun
    cases hx
    exact absurd rfl hne

namespace Caller

/-- The holder has come back and has been dispatched again. -/
theorem again (h : Caller k p) (htick : tick k false = .ok k₂) (hback : HolderBack k k₂ p)
    (hr : Rounds p k₂ k₃) : Caller k₃ p ∧ k₃.next = k₂.next ∧
      (k₃.proc p).level = (k₂.proc p).level ∧
      ∀ i, (k₃.proc i).alreadyEnqueued = (k₂.proc i).alreadyEnqueued := by
  obtain ⟨hsched, hk₃⟩ := hback.rounds hr
  have hlock : LockInv k₃ := (h.lockInv.tick htick).schedule hsched
  subst hk₃
  let m : Kernel := { k₂ with cpuProc := some p, schedP := some p }
  have hm : Tidy m := hback.tidy.congr (fun i => ⟨rfl, rfl, hback.tidy.level i⟩) rfl
  have htidy : Tidy (m.setProc p fun q => { q with state := .RUNNING, chan := none }) :=
    hm.setProc (fun _ => ⟨rfl, rfl⟩) (hm.level p)
  have hnext : (m.setProc p fun q => { q with state := .RUNNING, chan := none }).next = k₂.next :=
    setProc_next m p fun _ => rfl
  have hself : (m.setProc p fun q => { q with state := .RUNNING, chan := none }).proc p =
      { k₂.proc p with state := .RUNNING, chan := none } := setProc_proc_self ..
  refine ⟨⟨⟨htidy, ?_⟩, hlock, hback.locked, rfl, ?_⟩, hnext, ?_, fun i => ?_⟩
  · rw [LinkedIn, hnext, hself]
    exact hback.own
  · rw [hself]
  · rw [hself]
  · by_cases hi : i = p
    · subst hi
      rw [hself]
    · rw [setProc_proc_of_ne _ _ _ _ hi]

/-- The search in one queue finds the holder, or goes on with the next queue. -/
theorem searchQueue (h : Caller k p) (l : Nat) {cur : Option Slot}
    (hcur : ∀ a, cur = some a → Queued k a) :
    (UnlockRun k (.search l cur) k' ↔ UnlockRun k (.found p) k') ∨
      ¬ Linked k.next cur p ∧
        (UnlockRun k (.search l cur) k' ↔ UnlockRun k (.search l none) k') := by
  obtain ⟨xs, hc, hlen⟩ : ∃ xs, Chain k.next cur xs ∧ xs.length ≤ NPROC := by
    cases cur with
    | none => exact ⟨[], chain_nil_iff.mpr rfl, Nat.zero_le _⟩
    | some a =>
      obtain ⟨xs, hc, hlen, -⟩ := h.tidy.chainFrom (hcur a rfl)
      exact ⟨xs, hc, hlen⟩
  have hwalk := walkFind_eq (p := fun i => (k.proc i).lockScheduler) hc hlen
  obtain ⟨hsome, hnone⟩ := @unlockRun_search k k' NPROC l cur
  cases hfind : xs.find? fun i => (k.proc i).lockScheduler with
  | some y =>
    rw [hfind] at hwalk
    have hy := h.lockInv.holder y (walkFind_some hwalk).2
    have hp := h.lockInv.holder p h.holder
    rw [← Option.some.inj (hy.2.symm.trans hp.2)]
    exact .inl (hsome y hwalk)
  | none =>
    rw [hfind] at hwalk
    refine .inr ⟨fun hp => ?_, hnone hwalk⟩
    have hnot := List.find?_eq_none.mp hfind p (hc.linked_iff.mp hp)
    exact hnot h.holder

/-- The search from a place in front of the holder finds it. -/
theorem search (h : Caller k p) {l : Nat} {cur : Option Slot}
    (hcur : ∀ a, cur = some a → Queued k a)
    (hp : Linked k.next cur p ∨ ∃ l', l < l' ∧ l' < 3 ∧ LinkedIn k l' p) :
    UnlockRun k (.search l cur) k' ↔ UnlockRun k (.found p) k' := by
  induction hn : 3 - l generalizing l cur with
  | zero =>
    rcases h.searchQueue l hcur with hfound | ⟨hnot, -⟩
    · exact hfound
    · obtain ⟨l', hlt, hl', -⟩ := hp.resolve_left hnot
      omega
  | succ n ih =>
    rcases h.searchQueue l hcur with hfound | ⟨hnot, hend⟩
    · exact hfound
    · obtain ⟨l', hlt, hl', hlink⟩ := hp.resolve_left hnot
      rw [hend, unlockRun_iff (by simp), unlockStep, if_pos (by omega)]
      refine ih (fun a ha => ⟨l + 1, by omega, ?_⟩) ?_ (by omega)
      · rw [LinkedIn, ha]
        exact .here a
      · rcases Nat.eq_or_lt_of_le (Nat.succ_le_of_lt hlt) with rfl | hlt
        · exact .inl hlink
        · exact .inr ⟨l', hlt, hl', hlink⟩

/-- An interrupt under the lock, without a boost, comes as if wholly before the call when the rest
    of the call finds the holder. -/
theorem harmless_locked (h : Caller k p) (hdue : k.globalTick + 1 < 100)
    (hrest : ∀ k₂ k₃ k', HolderBack k k₂ p → Caller k₃ p → k₃.next = k₂.next →
      (k₃.proc p).level = (k₂.proc p).level →
      (∀ i, (k₃.proc i).alreadyEnqueued = (k₂.proc i).alreadyEnqueued) →
      (UnlockRun k₃ pt k' ↔ UnlockRun k₃ (.found p) k')) : Harmless k p k pt := by
  obtain ⟨k₂, htick, hback⟩ := h.tidy.tickLocked h.own h.locked h.cpuProc
    (h.lockInv.onCpu p h.cpuProc) h.running hdue
  refine ⟨k₂, htick, ⟨_, Nat.lt_succ_of_le (hback.tidy.level p), hback.own⟩, fun k₃ hr => ?_⟩
  obtain ⟨h₃, hnext, hlevel, hflag⟩ := h.again htick hback hr
  obtain ⟨k', hrun, -, htidy, -⟩ := h₃.tidy.unlockFound h₃.running h₃.own
  have hunlock : schedulerUnlock k₃ p schedPassword = .ok k' := by
    rw [schedulerUnlock, if_neg (by simp [h₃.locked]), if_pos rfl, unlockHolder,
      if_neg (by simp [h₃.locked]), h₃.tidy.findHolder h₃.lockInv h₃.holder h₃.queued]
    exact hrun
  refine ⟨k', (hrest k₂ k₃ k' hback h₃ hnext hlevel hflag).mpr ((unlockRun_found hrun).mpr rfl),
    htidy.intact, k', .before hdue htick hr hunlock, fun _ => Iff.rfl⟩

end Caller

/-! ### The safe places -/

/-- With the interrupt before or after the call, whoever else is queued stays queued. -/
theorem Caller.reference_keeps (h : Caller k p) {r : Kernel} (hr : Reference k p r) (hx : x ≠ p)
    (hq : Queued k x) : Queued r x := by
  have hflag := h.tidy.queued_iff.mp hq
  obtain ⟨u, u', hunlock, htick, hint, -, hafter⟩ := h.after
  have hu := (hafter x).mpr (.inl hflag)
  cases hr with
  | before hdue htick₁ hrounds hrun =>
    obtain ⟨k₁, htick₁', hback⟩ := h.tidy.tickLocked h.own h.locked h.cpuProc
      (h.lockInv.onCpu p h.cpuProc) h.running hdue
    cases htick₁.symm.trans htick₁'
    obtain ⟨h₂, -, -, hsame⟩ := h.again htick₁ hback hrounds
    obtain ⟨k', hrun', hframe, htidy, -⟩ := h₂.unlock
    cases hrun.symm.trans hrun'
    rw [htidy.queued_iff, hframe.flag x hx, hsame]
    exact hback.flag x hflag
  | after hrun htick₁ =>
    cases hrun.symm.trans hunlock
    cases htick₁.symm.trans htick
    exact hint.tidy.queued_iff.mpr hu
  | resumed hrun htick₁ hrounds =>
    cases hrun.symm.trans hunlock
    cases htick₁.symm.trans htick
    have hdisp := hint.tidy.rounds hint.free hrounds
    exact hdisp.tidy.queued_iff.mpr ((hdisp.flag x).mpr ⟨hu, hx⟩)

/-- The first process has forked a child, has taken the scheduler lock, has been preempted once
    and runs again.  Its call of `schedulerUnlock` is interrupted behind the assignment to its
    `next`: the child is dispatched and yields before the caller goes on. -/
theorem preempted_run : ∃ k k₂ a b k₃, Reachable Init (Steps step fun _ _ => True) k ∧ Caller k 0 ∧
    Queued k 1 ∧ ((unlockAt k 9).2 = .push 0 ∧ (unlockAt k 10).2 = .setHead 0 ∧
      ∀ m < 10, (unlockAt k m).2 ≠ .done) ∧
    step (unlockAt k 10).1 (.tick false) = .ok k₂ ∧ (step k₂ .schedule = .ok a ∧
      a.cpuProc = some 1) ∧ step a .yield = .ok b ∧ (step b .schedule = .ok k₃ ∧
      k₃.cpuProc = some 0) ∧ k₃.next 0 = none ∧ k₃.levelQueue 1 = none ∧
    k₃.levelQueue 2 = none := by
  obtain ⟨k₀, h₀⟩ : ∃ k, userinit boot = .ok k := ⟨_, rfl⟩
  obtain ⟨k, hk, htest⟩ := exec_of_execTest step k₀ [.schedule, .forkAlloc true, .forkFinish true,
      .schedulerLock schedPassword, .tick true, .schedule] (fun k =>
      decide (walkList k.next NPROC (k.levelQueue 0) = some [1, 0]) &&
      decide (∀ i, (k.proc i).alreadyEnqueued = true ↔ i ∈ [1, 0]) &&
      decide (∀ i, (k.proc i).level ≤ 2) &&
      decide (k.schedulerLocked = true ∧ k.cpuProc = some 0 ∧ (k.proc 0).state = .RUNNING ∧
        (k.proc 0).level = 0) &&
      decide ((unlockAt k 9).2 = .push 0 ∧ (unlockAt k 10).2 = .setHead 0 ∧
        ∀ m : Nat, m < 10 → (unlockAt k m).2 ≠ .done) &&
      execTest step (unlockAt k 10).1 [.tick false] fun k₂ =>
        execTest step k₂ [.schedule] fun a => decide (a.cpuProc = some 1) &&
          execTest step a [.yield] fun b => execTest step b [.schedule] fun k₃ =>
            decide (k₃.cpuProc = some 0) &&
              decide (k₃.next 0 = none ∧ k₃.levelQueue 1 = none ∧ k₃.levelQueue 2 = none)) (by
    cases h₀
    decide +kernel)
  have hout : ∀ l, k.levelQueue (l + 1) = none := by
    cases h₀
    cases hk
    exact fun _ => rfl
  have hreach : Reachable Init (Steps step fun _ _ => True) k :=
    reachable_exec (.start h₀) (fun _ _ _ => trivial) hk
  simp only [Bool.and_eq_true, decide_eq_true_eq] at htest
  obtain ⟨⟨⟨⟨⟨hwalk, hflag⟩, hlevel⟩, hlocked, hcpu, hs, h0⟩, hpoints⟩, hrun⟩ := htest
  have htidy : Tidy k := .of_first [1, 0] hwalk hout hflag hlevel
  have hlinked : ∀ i ∈ [1, 0], LinkedIn k 0 i := fun i hi =>
    (walkList_some hwalk).linked_iff.mpr hi
  obtain ⟨k₂, hk₂, hrun⟩ := exec_of_execTest _ _ _ _ hrun
  obtain ⟨a, ha, hrun⟩ := exec_of_execTest _ _ _ _ hrun
  rw [Bool.and_eq_true, decide_eq_true_eq] at hrun
  obtain ⟨b, hb, hrun'⟩ := exec_of_execTest _ _ _ _ hrun.2
  obtain ⟨k₃, hk₃, hend⟩ := exec_of_execTest _ _ _ _ hrun'
  simp only [Bool.and_eq_true, decide_eq_true_eq] at hend
  have hone : ∀ {s t e}, exec step s [e] = .ok t → step s e = .ok t := fun h => by
    obtain ⟨u, hu, hut⟩ := exec_cons_eq_ok.mp h
    cases hut
    exact hu
  refine ⟨k, k₂, a, b, k₃, hreach, ⟨⟨htidy, ?_⟩, lockInv_of_reachable hreach, hlocked, hcpu, hs⟩,
    ⟨0, by omega, hlinked 1 (by decide)⟩, hpoints, hone hk₂, ⟨hone ha, hrun.1⟩, hone hb,
    ⟨hone hk₃, hend.1⟩, hend.2⟩
  rw [h0]
  exact hlinked 0 (by decide)

end Xv6.Mlfq
