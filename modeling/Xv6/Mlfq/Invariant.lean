import Xv6.Mlfq.Boost
import Xv6.Lib.Transition

namespace Xv6.Mlfq

open Xv6.Lib

/-!
# MLFQ scheduler — the queue invariant without the scheduler lock

As long as no process calls `schedulerLock`, the queues always hold exactly the `RUNNABLE`
processes, each once and in the queue of its level.

The operations change `state`, `level` and links separately, so the invariant is broken in
between for the one process that is being moved.  `Inv x k` is the invariant with that process
left out: `Inv none k` is the full invariant, and `Inv (some p) k` says that `p` is linked
nowhere and that everything holds for the other processes.  Every operation takes one process
out (`Inv.setProc_out`) and brings it back, either queued (`Inv.enqueue`) or in a state that
needs no queue (`Inv.close`).
-/

/-- The queue invariant, with the process `x` left out. -/
structure Inv (x : Option Slot) (k : Kernel) : Prop where
  queues : ∃ q, Queues k q ∧ ∀ l, ∀ p ∈ q l, (k.proc p).level = l
  runnable : ∀ i, x ≠ some i →
    ((k.proc i).alreadyEnqueued = true ↔ (k.proc i).state = .RUNNABLE)
  out : ∀ i, x = some i → (k.proc i).alreadyEnqueued = false
  level : ∀ i, (k.proc i).level ≤ 2
  unlocked : k.schedulerLocked = false
  np : ∀ i c, k.np i = some c → (k.proc c).state = .EMBRYO
  npInj : ∀ i j c, k.np i = some c → k.np j = some c → i = j

namespace Inv

variable {x : Option Slot} {k k' : Kernel} {p : Slot}

/-- A process that is not `RUNNABLE` is not marked as queued. -/
theorem not_flag (h : Inv none k) (hp : (k.proc p).state ≠ .RUNNABLE) :
    (k.proc p).alreadyEnqueued = false := by
  rw [← Bool.not_eq_true, h.runnable p (by simp)]
  exact hp

/-- The invariant only reads the process table, the queue heads, the lock and `np`. -/
theorem congr (h : Inv x k) (hproc : k'.proc = k.proc) (hq : k'.levelQueue = k.levelQueue)
    (hlock : k'.schedulerLocked = k.schedulerLocked) (hnp : k'.np = k.np) : Inv x k' := by
  obtain ⟨q, hQ, hlev⟩ := h.queues
  refine ⟨⟨q, hQ.congr (fun i => by rw [hproc]) (fun i => by rw [hproc]) hq, ?_⟩, ?_, ?_, ?_, ?_,
    ?_, ?_⟩
  · rw [hproc]; exact hlev
  · rw [hproc]; exact h.runnable
  · rw [hproc]; exact h.out
  · rw [hproc]; exact h.level
  · rw [hlock]; exact h.unlocked
  · rw [hproc, hnp]; exact h.np
  · rw [hnp]; exact h.npInj

/-- A new value of the local variables `np`. -/
theorem setNp (h : Inv x k) {g : Slot → Option Slot}
    (hnp : ∀ i c, g i = some c → (k.proc c).state = .EMBRYO)
    (hinj : ∀ i j c, g i = some c → g j = some c → i = j) : Inv x { k with np := g } := by
  obtain ⟨q, hQ, hlev⟩ := h.queues
  exact ⟨⟨q, hQ.congr (fun _ => rfl) (fun _ => rfl) rfl, hlev⟩, h.runnable, h.out, h.level,
    h.unlocked, hnp, hinj⟩

/-- An update of a process outside the queues that does not set its flag. -/
theorem setProc (h : Inv x k) (p : Slot) {f : Proc → Proc}
    (hp : (k.proc p).alreadyEnqueued = false)
    (hf : (f (k.proc p)).alreadyEnqueued = (k.proc p).alreadyEnqueued)
    (hl : (f (k.proc p)).level ≤ 2)
    (hs : x ≠ some p → (f (k.proc p)).state ≠ .RUNNABLE)
    (hnp : ∀ i, k.np i = some p → (f (k.proc p)).state = .EMBRYO) :
    Inv x (k.setProc p f) := by
  obtain ⟨q, hQ, hlev⟩ := h.queues
  have hpq : ∀ l, p ∉ q l := hQ.not_mem hp
  refine ⟨⟨q, hQ.setProc_out hp (hf.trans hp), fun l i hi => ?_⟩, fun i hx => ?_,
    fun i hx => ?_, fun i => ?_, h.unlocked, fun i c hc => ?_, h.npInj⟩
  · have hip : i ≠ p := fun hip => hpq l (hip ▸ hi)
    rw [setProc_proc_of_ne _ _ _ _ hip]
    exact hlev l i hi
  · by_cases hip : i = p
    · subst hip
      rw [setProc_proc_self, hf, hp]
      simp [hs hx]
    · rw [setProc_proc_of_ne _ _ _ _ hip]
      exact h.runnable i hx
  · by_cases hip : i = p
    · subst hip; rw [setProc_proc_self, hf, hp]
    · rw [setProc_proc_of_ne _ _ _ _ hip]
      exact h.out i hx
  · by_cases hip : i = p
    · subst hip; rw [setProc_proc_self]; exact hl
    · rw [setProc_proc_of_ne _ _ _ _ hip]
      exact h.level i
  · by_cases hcp : c = p
    · subst hcp; rw [setProc_proc_self]; exact hnp i hc
    · rw [setProc_proc_of_ne _ _ _ _ hcp]
      exact h.np i c hc

/-- An update of fields the invariant does not read. -/
theorem setProc_inert (h : Inv x k) (p : Slot) {f : Proc → Proc}
    (hf : ∀ q, (f q).next = q.next ∧ (f q).alreadyEnqueued = q.alreadyEnqueued ∧
      (f q).level = q.level ∧ (f q).state = q.state) : Inv x (k.setProc p f) := by
  obtain ⟨q, hQ, hlev⟩ := h.queues
  have hsame : ∀ i, ((k.setProc p f).proc i).alreadyEnqueued = (k.proc i).alreadyEnqueued ∧
      ((k.setProc p f).proc i).level = (k.proc i).level ∧
      ((k.setProc p f).proc i).state = (k.proc i).state := by
    intro i
    by_cases hip : i = p
    · subst hip; rw [setProc_proc_self]; exact (hf _).2
    · rw [setProc_proc_of_ne _ _ _ _ hip]; exact ⟨rfl, rfl, rfl⟩
  refine ⟨⟨q, hQ.setProc p (hf _).1 (hf _).2.1, fun l i hi => ?_⟩, fun i hx => ?_, fun i hx => ?_,
    fun i => ?_, h.unlocked, fun i c hc => ?_, h.npInj⟩
  · rw [(hsame i).2.1]; exact hlev l i hi
  · rw [(hsame i).1, (hsame i).2.2]; exact h.runnable i hx
  · rw [(hsame i).1]; exact h.out i hx
  · rw [(hsame i).2.1]; exact h.level i
  · rw [(hsame c).2.2]; exact h.np i c hc

/-- Leaving out a process that is not queued. -/
theorem leave (h : Inv none k) (hp : (k.proc p).alreadyEnqueued = false) : Inv (some p) k := by
  refine ⟨h.queues, fun i _ => h.runnable i (by simp), ?_, h.level, h.unlocked, h.np, h.npInj⟩
  rintro i ⟨⟩
  exact hp

/-- Taking out a process that is not `RUNNABLE`, with a new state. -/
theorem setProc_out (h : Inv none k) {f : Proc → Proc} (hp : (k.proc p).state ≠ .RUNNABLE)
    (hf : (f (k.proc p)).alreadyEnqueued = (k.proc p).alreadyEnqueued)
    (hl : (f (k.proc p)).level ≤ 2)
    (hnp : ∀ i, k.np i = some p → (f (k.proc p)).state = .EMBRYO) :
    Inv (some p) (k.setProc p f) :=
  (h.leave (h.not_flag hp)).setProc p (h.not_flag hp) hf hl (fun hx => absurd rfl hx) hnp

/-- Bringing back a process that needs no queue. -/
theorem close (h : Inv (some p) k) (hp : (k.proc p).state ≠ .RUNNABLE) : Inv none k := by
  refine ⟨h.queues, fun i _ => ?_, by simp, h.level, h.unlocked, h.np, h.npInj⟩
  by_cases hip : i = p
  · subst hip
    rw [h.out i rfl]
    simp [hp]
  · exact h.runnable i (by simpa using fun hpi => hip hpi.symm)

/-- Bringing back a `RUNNABLE` process by queueing it at its level. -/
theorem enqueue (h : Inv (some p) k) (hp : (k.proc p).state = .RUNNABLE) :
    ∃ k', Mlfq.enqueue k p (k.proc p).level = .ok k' ∧ SameButLinks k k' ∧ Inv none k' := by
  obtain ⟨q, hQ, hlev⟩ := h.queues
  have hout := h.out p rfl
  obtain ⟨k', hrun, hsame, hQ'⟩ := enqueue_spec hQ (k.proc p).level hout
  refine ⟨k', hrun, hsame, ⟨_, hQ', fun l i hi => ?_⟩, fun i _ => ?_, by simp, fun i => ?_, ?_,
    fun i c hc => ?_, ?_⟩
  · rw [hsame.level_eq i]
    by_cases hl : l = (k.proc p).level
    · subst hl
      rw [Function.update_self, List.mem_append, List.mem_singleton] at hi
      rcases hi with hi | rfl
      · exact hlev _ i hi
      · rfl
    · rw [Function.update_of_ne hl] at hi
      exact hlev l i hi
  · rw [hQ'.flag i, hsame.state_eq i]
    by_cases hip : i = p
    · subst hip
      simp only [hp, iff_true]
      exact ⟨(k.proc i).level, by simp⟩
    · rw [← h.runnable i (by simpa using fun hpi => hip hpi.symm), hQ.flag i]
      constructor
      · rintro ⟨l, hi⟩
        refine ⟨l, ?_⟩
        by_cases hl : l = (k.proc p).level
        · subst hl; simpa [hip] using hi
        · rwa [Function.update_of_ne hl] at hi
      · rintro ⟨l, hi⟩
        refine ⟨l, ?_⟩
        by_cases hl : l = (k.proc p).level
        · subst hl; simp [hi]
        · rwa [Function.update_of_ne hl]
  · rw [hsame.level_eq i]; exact h.level i
  · rw [hsame.schedulerLocked]; exact h.unlocked
  · rw [hsame.state_eq c]
    rw [hsame.np] at hc
    exact h.np i c hc
  · rw [hsame.np]; exact h.npInj

/-- The change of state and the queueing that `fork`, `wakeup1` and `kill` make of a process
    that is not `RUNNABLE`. -/
theorem makeRunnable (h : Inv none k) (hp : (k.proc p).state ≠ .RUNNABLE)
    (hnp : ∀ i, k.np i ≠ some p) :
    ∃ k', Mlfq.makeRunnable k p = .ok k' ∧ Inv none k' ∧ SameGlobals k k' ∧
      ∀ i, i ≠ p → (k'.proc i).state = (k.proc i).state := by
  have h' : Inv (some p) (k.setProc p fun q => { q with state := .RUNNABLE }) :=
    h.setProc_out hp rfl (h.level p) fun i hi => absurd hi (hnp i)
  obtain ⟨k', hrun, hsame, hinv⟩ := h'.enqueue (by simp)
  refine ⟨k', ?_, hinv, (SameGlobals.setProc k p _).trans hsame.toSameGlobals, fun i hip => ?_⟩
  · simpa [Mlfq.makeRunnable] using hrun
  · rw [hsame.state_eq i, setProc_proc_of_ne _ _ _ _ hip]

/-- The change of level of a process that is linked nowhere. -/
theorem changeLevel (h : Inv (some p) k) :
    ∃ k', Mlfq.changeLevel k p = .ok k' ∧ Inv (some p) k' ∧ SameGlobals k k' ∧
      ∀ i, (k'.proc i).state = (k.proc i).state := by
  have hstate : ∀ (f : Proc → Proc), (f (k.proc p)).state = (k.proc p).state → ∀ i,
      ((k.setProc p f).proc i).state = (k.proc i).state := by
    intro f hf i
    by_cases hip : i = p
    · subst hip; rw [setProc_proc_self, hf]
    · rw [setProc_proc_of_ne _ _ _ _ hip]
  have hnp : ∀ i, k.np i = some p → (k.proc p).state = .EMBRYO := fun i hi => h.np i p hi
  have hleave : leaveLevel k p = .ok k := by simp [leaveLevel, h.unlocked]
  rw [Mlfq.changeLevel, hleave]
  split
  · rename_i hlev
    refine ⟨_, rfl, h.setProc p (h.out p rfl) rfl ?_
      (fun hx => absurd rfl hx) hnp, .setProc k p _, hstate _ rfl⟩
    simp only
    omega
  · split
    · exact ⟨_, rfl, h.setProc p (h.out p rfl) rfl (h.level p) (fun hx => absurd rfl hx) hnp,
        .setProc k p _, hstate _ rfl⟩
    · exact ⟨k, rfl, h, .refl k, fun _ => rfl⟩

/-- A boost keeps the invariant and every process state. -/
theorem boost (h : Inv none k) :
    ∃ k', Mlfq.boost k = .ok k' ∧ Inv none k' ∧ k'.cpuProc = k.cpuProc := by
  obtain ⟨q, hQ, hlev⟩ := h.queues
  obtain ⟨k', hrun, hQ', hsame, hproc, -⟩ := boostQueues_spec hQ
  have hstate : ∀ i, (k'.proc i).state = (k.proc i).state := by
    intro i
    rw [hproc i]
    simp only [boostProc]
    split
    · rfl
    · split <;> rfl
  have hlevel : ∀ i, (k'.proc i).level = (boostProc q i (k.proc i)).level := by
    intro i; rw [hproc i]
  have hunlocked : k'.schedulerLocked = false := hsame.schedulerLocked.trans h.unlocked
  have hinv : Inv none k' := by
    refine ⟨⟨_, hQ', fun l i hi => ?_⟩, fun i _ => ?_, by simp, fun i => ?_, hunlocked,
      fun i c hc => ?_, ?_⟩
    · -- only the levels 0 to 2 are in use
      have hq : ∀ l, l > 2 → q l = [] := by
        intro l hl
        refine List.eq_nil_iff_forall_not_mem.mpr fun j hj => ?_
        have h1 := hlev l j hj
        have h2 := h.level j
        omega
      rw [hlevel i, boostProc]
      rw [boosted] at hi
      split at hi
      · rename_i hl
        subst hl
        split
        · rename_i h0
          rw [resetPriority]
          exact hlev 0 i h0
        · rename_i h0
          simp only [List.mem_append, h0, false_or] at hi
          rw [if_pos hi]
          rfl
      · split at hi
        · simp at hi
        · rw [hq l (by omega)] at hi
          simp at hi
    · rw [hQ'.flag i, mem_boosted, ← hQ.flag i, hstate i]
      exact h.runnable i (by simp)
    · rw [hlevel i, boostProc]
      have := h.level i
      split
      · exact this
      · split
        · simp [resetLevel]
        · exact this
    · rw [hstate c]
      rw [hsame.np] at hc
      exact h.np i c hc
    · rw [hsame.np]; exact h.npInj
  refine ⟨{ k' with globalTick := 0 }, ?_, hinv.congr rfl rfl rfl rfl, hsame.cpuProc⟩
  have hboost : unlockBoosted k' = .ok k' := by simp [unlockBoosted, hunlocked]
  rw [Mlfq.boost, hrun, ok_bind, hboost, ok_bind]

/-- Queueing the process that came back, if it is still runnable. -/
theorem requeue (h : Inv (some p) k) :
    ∃ k', Mlfq.requeue k p = .ok k' ∧ Inv none k' ∧ SameGlobals k k' := by
  rw [Mlfq.requeue]
  split
  · rename_i hp
    obtain ⟨k', hrun, hsame, hinv⟩ := h.enqueue hp
    exact ⟨k', hrun, hinv, hsame.toSameGlobals⟩
  · rename_i hp
    exact ⟨k, rfl, h.close hp, .refl k⟩

/-- The second half of a scheduler round brings the process that came back to its place. -/
theorem schedReturn (h : Inv (some p) k) :
    ∃ k', Mlfq.schedReturn k p = .ok k' ∧ Inv none k' ∧ k'.cpuProc = none := by
  have hgive : giveUpLock { k with cpuProc := none } p = .ok { k with cpuProc := none } := by
    simp [giveUpLock, h.unlocked]
  have h₁ : Inv (some p) { k with cpuProc := none } := h.congr rfl rfl rfl rfl
  obtain ⟨k₂, hrun₂, h₂, hsame₂, _⟩ := h₁.changeLevel
  obtain ⟨k₃, hrun₃, h₃, hsame₃⟩ := h₂.requeue
  have hforget : forgetP k₃ = { k₃ with schedP := none } := by
    simp [forgetP, h₃.unlocked]
  have h₄ : Inv none { k₃ with schedP := none } := h₃.congr rfl rfl rfl rfl
  have hcpu : k₃.cpuProc = none := hsame₃.cpuProc.trans hsame₂.cpuProc
  rw [Mlfq.schedReturn, hgive, ok_bind, hrun₂, ok_bind, hrun₃, ok_bind, hforget, boostIfDue]
  split
  · obtain ⟨k', hb, hinv, hcpu'⟩ := h₄.boost
    exact ⟨k', hb, hinv, hcpu'.trans hcpu⟩
  · exact ⟨_, rfl, h₄, hcpu⟩

/-- `wakeup1` keeps the invariant and only changes the state of sleepers. -/
theorem wakeup1 (h : Inv none k) (chan : Option Chan) :
    ∃ k', Mlfq.wakeup1 k chan = .ok k' ∧ Inv none k' ∧ SameGlobals k k' ∧
      ∀ i, (k.proc i).state ≠ .SLEEPING → (k'.proc i).state = (k.proc i).state := by
  refine foldlM_ok (I := fun k' => Inv none k' ∧ SameGlobals k k' ∧
    ∀ i, (k.proc i).state ≠ .SLEEPING → (k'.proc i).state = (k.proc i).state) ?_ _
    ⟨h, .refl k, fun _ _ => rfl⟩
  rintro k₁ p ⟨h₁, hsame₁, hstate₁⟩
  rw [wakeOne]
  split
  · rename_i hp
    have hnp : ∀ i, k₁.np i ≠ some p := by
      intro i hi
      have := h₁.np i p hi
      rw [hp.1] at this
      cases this
    obtain ⟨k₂, hrun, h₂, hsame₂, hstate₂⟩ := h₁.makeRunnable (by simp [hp.1]) hnp
    refine ⟨k₂, hrun, h₂, hsame₁.trans hsame₂, fun i hi => ?_⟩
    have hip : i ≠ p := by
      rintro rfl
      rw [← hstate₁ i hi, hp.1] at hi
      exact hi rfl
    rw [hstate₂ i hip, hstate₁ i hi]
  · exact ⟨k₁, rfl, h₁, hsame₁, hstate₁⟩

/-- Taking a process out of its queue leaves it out of the invariant. -/
theorem remove (h : Inv none k) {q : Nat → List Slot} (hQ : Queues k q)
    (hlev : ∀ l, ∀ p ∈ q l, (k.proc p).level = l) {l : Nat} {xs : List Slot}
    (hsame : SameButLinks k k') (hQ' : Queues k' (Function.update q l xs))
    (hxs : ∀ i, i ∈ xs ↔ i ∈ q l ∧ i ≠ p) (hp : p ∈ q l) : Inv (some p) k' := by
  have hmem : ∀ i, i ≠ p → ((∃ l', i ∈ Function.update q l xs l') ↔ ∃ l', i ∈ q l') := by
    intro i hip
    constructor
    · rintro ⟨l', hi⟩
      by_cases hl : l' = l
      · subst hl
        rw [Function.update_self] at hi
        exact ⟨l', ((hxs i).mp hi).1⟩
      · rw [Function.update_of_ne hl] at hi
        exact ⟨l', hi⟩
    · rintro ⟨l', hi⟩
      refine ⟨l', ?_⟩
      by_cases hl : l' = l
      · subst hl
        rw [Function.update_self]
        exact (hxs i).mpr ⟨hi, hip⟩
      · rwa [Function.update_of_ne hl]
  refine ⟨⟨_, hQ', fun l' i hi => ?_⟩, fun i hx => ?_, ?_, fun i => ?_, ?_, fun i c hc => ?_, ?_⟩
  · rw [hsame.level_eq i]
    by_cases hl : l' = l
    · subst hl
      rw [Function.update_self] at hi
      exact hlev l' i ((hxs i).mp hi).1
    · rw [Function.update_of_ne hl] at hi
      exact hlev l' i hi
  · have hip : i ≠ p := fun hip => hx (hip ▸ rfl)
    rw [hQ'.flag i, hmem i hip, ← hQ.flag i, hsame.state_eq i]
    exact h.runnable i (by simp)
  · rintro i ⟨⟩
    rw [← Bool.not_eq_true, hQ'.flag p]
    rintro ⟨l', hi⟩
    by_cases hl : l' = l
    · subst hl
      rw [Function.update_self] at hi
      exact ((hxs p).mp hi).2 rfl
    · rw [Function.update_of_ne hl] at hi
      exact hl (hQ.level_unique hi hp)
  · rw [hsame.level_eq i]; exact h.level i
  · rw [hsame.schedulerLocked]; exact h.unlocked
  · rw [hsame.state_eq c]
    rw [hsame.np] at hc
    exact h.np i c hc
  · rw [hsame.np]; exact h.npInj

end Inv

/-! ### The choice of the scheduler -/

/-- The scheduler picks nobody and changes nothing, or takes a `RUNNABLE` process out. -/
theorem pick_spec {k : Kernel} (h : Inv none k) :
    pick k = .ok (none, k) ∨ ∃ p k', pick k = .ok (some p, k') ∧ SameButLinks k k' ∧
      (k.proc p).state = .RUNNABLE ∧ Inv (some p) k' := by
  obtain ⟨q, hQ, hlev⟩ := h.queues
  have hrunnable : ∀ l, ∀ p ∈ q l, (k.proc p).state = .RUNNABLE := by
    intro l p hp
    rw [← h.runnable p (by simp), hQ.flag p]
    exact ⟨l, hp⟩
  have hhead : ∀ l p vs, q l = p :: vs → ∃ k', dequeue k l = (some p, k') ∧ SameButLinks k k' ∧
      (k.proc p).state = .RUNNABLE ∧ Inv (some p) k' := by
    intro l p vs hq
    obtain ⟨k', hrun, hsame, _, _, hQ'⟩ := dequeue_cons hQ hq
    have hnd := (hQ.chain l).nodup
    rw [hq, List.nodup_cons] at hnd
    refine ⟨k', hrun, hsame, hrunnable l p (by simp [hq]),
      h.remove hQ hlev hsame hQ' (fun i => ?_) (by simp [hq])⟩
    rw [hq, List.mem_cons]
    constructor
    · intro hi; exact ⟨.inr hi, fun hip => hnd.1 (hip ▸ hi)⟩
    · rintro ⟨rfl | hi, hip⟩
      · exact absurd rfl hip
      · exact hi
  simp only [pick, h.unlocked, Bool.false_eq_true, and_false, if_false]
  rcases hq0 : q 0 with _ | ⟨p, vs⟩
  · rw [dequeue_nil hQ hq0]
    rcases hq1 : q 1 with _ | ⟨p, vs⟩
    · simp only [dequeue_nil hQ hq1, walkList_eq (hQ.chain 2) (hQ.length_le 2)]
      rcases highPriority_spec k (q 2) with ⟨_, hnone⟩ | ⟨p, hp, hsome⟩
      · rw [hnone]
        exact .inl rfl
      · obtain ⟨k', hrun, hsame, _, _, hQ'⟩ := dequeueSpecific_spec hQ hp
        refine .inr ⟨p, k', by simp [hsome, hrun], hsame, hrunnable 2 p hp,
          h.remove hQ hlev hsame hQ' (fun i => ?_) hp⟩
        rw [(hQ.chain 2).nodup.mem_erase_iff]
        exact and_comm
    · obtain ⟨k', hrun, hrest⟩ := hhead 1 p vs hq1
      simp only [hrun]
      exact .inr ⟨p, k', rfl, hrest⟩
  · obtain ⟨k', hrun, hrest⟩ := hhead 0 p vs hq0
    simp only [hrun]
    exact .inr ⟨p, k', rfl, hrest⟩

/-! ### One step -/

/-- The invariant between the steps of the machine. -/
structure Good (k : Kernel) : Prop where
  inv : Inv none k
  running : ∀ p, k.cpuProc = some p → (k.proc p).state = .RUNNING

namespace Good

variable {k : Kernel} {p : Slot}

/-- No process is on the CPU: the scheduler is between two rounds. -/
theorem of_idle (h : Inv none k) (hcpu : k.cpuProc = none) : Good k :=
  ⟨h, fun p hp => by rw [hcpu] at hp; cases hp⟩

/-- The running process is not a child that some `fork` is still building. -/
theorem np_ne (h : Good k) (hcpu : k.cpuProc = some p) (i : Slot) : k.np i ≠ some p := by
  intro hi
  have := h.inv.np i p hi
  rw [h.running p hcpu] at this
  cases this

/-- The running process gives up the CPU in any new state. -/
theorem giveUp (h : Good k) (hcpu : k.cpuProc = some p) {f : Proc → Proc}
    (hf : ∀ q, (f q).alreadyEnqueued = q.alreadyEnqueued ∧ (f q).level = q.level) :
    ∃ k', schedReturn (k.setProc p f) p = .ok k' ∧ Good k' := by
  have hinv : Inv (some p) (k.setProc p f) :=
    h.inv.setProc_out (by simp [h.running p hcpu]) (hf _).1
      (by rw [(hf _).2]; exact h.inv.level p) fun i hi => absurd hi (h.np_ne hcpu i)
  obtain ⟨k', hrun, hinv', hcpu'⟩ := hinv.schedReturn
  exact ⟨k', hrun, of_idle hinv' hcpu'⟩

theorem sleep (h : Good k) (hcpu : k.cpuProc = some p) (chan : Chan) :
    ∃ k', Mlfq.sleep k p chan = .ok k' ∧ Good k' :=
  h.giveUp hcpu fun _ => ⟨rfl, rfl⟩

theorem yield (h : Good k) (hcpu : k.cpuProc = some p) :
    ∃ k', Mlfq.yield k p = .ok k' ∧ Good k' :=
  h.giveUp hcpu fun _ => ⟨rfl, rfl⟩

/-- A step that changes nothing but sleepers keeps the running process running. -/
theorem of_wakeup {k' : Kernel} (h : Good k) (hinv : Inv none k') (hsame : SameGlobals k k')
    (hstate : ∀ i, (k.proc i).state ≠ .SLEEPING → (k'.proc i).state = (k.proc i).state) :
    Good k' := by
  refine ⟨hinv, fun p hp => ?_⟩
  rw [hsame.cpuProc] at hp
  have := h.running p hp
  rw [hstate p (by simp [this]), this]

theorem wakeup1 (h : Good k) (chan : Option Chan) :
    ∃ k', Mlfq.wakeup1 k chan = .ok k' ∧ Good k' ∧ SameGlobals k k' := by
  obtain ⟨k', hrun, hinv, hsame, hstate⟩ := h.inv.wakeup1 chan
  exact ⟨k', hrun, h.of_wakeup hinv hsame hstate, hsame⟩

theorem schedule (h : Good k) (hcpu : k.cpuProc = none) :
    ∃ k', Mlfq.schedule k = .ok k' ∧ Good k' := by
  have hblock : ¬ k.cpuProc.isSome = true := by simp [hcpu]
  rw [Mlfq.schedule, if_neg hblock]
  rcases pick_spec h.inv with hpick | ⟨p, k', hpick, hsame, hp, hinv⟩
  · rw [hpick, ok_bind]
    exact ⟨_, rfl, of_idle (h.inv.congr rfl rfl rfl rfl) hcpu⟩
  · have hp' : (k'.proc p).state = .RUNNABLE := (hsame.state_eq p).trans hp
    have hnp : ∀ i, k'.np i ≠ some p := by
      intro i hi
      have := hinv.np i p hi
      rw [hp'] at this
      cases this
    rw [hpick, ok_bind]
    simp only [hp', reduceCtorEq, if_false]
    refine ⟨_, rfl, ?_, fun i hi => ?_⟩
    · have hinv' : Inv (some p) { k' with cpuProc := some p, schedP := some p } :=
        hinv.congr rfl rfl rfl rfl
      refine (hinv'.setProc p (hinv.out p rfl) rfl (hinv.level p) (fun hx => absurd rfl hx)
        fun i hi => absurd hi (hnp i)).close ?_
      simp
    · simp only [setProc_cpuProc, Option.some.injEq] at hi
      subst hi
      simp

/-- Setting fields the invariant does not read. -/
theorem setProc_inert (h : Good k) (p : Slot) {f : Proc → Proc}
    (hf : ∀ q, (f q).next = q.next ∧ (f q).alreadyEnqueued = q.alreadyEnqueued ∧
      (f q).level = q.level ∧ (f q).state = q.state) : Good (k.setProc p f) := by
  refine ⟨h.inv.setProc_inert p hf, fun i hi => ?_⟩
  have hrun := h.running i hi
  by_cases hip : i = p
  · subst hip; rw [setProc_proc_self, (hf _).2.2.2]; exact hrun
  · rw [setProc_proc_of_ne _ _ _ _ hip]; exact hrun

/-- Waking a sleeper keeps everything. -/
theorem makeRunnable (h : Good k) (hp : (k.proc p).state = .SLEEPING) :
    ∃ k', Mlfq.makeRunnable k p = .ok k' ∧ Good k' := by
  have hnp : ∀ i, k.np i ≠ some p := by
    intro i hi
    have := h.inv.np i p hi
    rw [hp] at this
    cases this
  obtain ⟨k', hrun, hinv, hsame, hstate⟩ := h.inv.makeRunnable (by simp [hp]) hnp
  refine ⟨k', hrun, h.of_wakeup hinv hsame fun i hi => hstate i ?_⟩
  rintro rfl
  exact hi hp

theorem kill (h : Good k) (pid : Int) : ∃ k', Mlfq.kill k pid = .ok k' ∧ Good k' := by
  rw [Mlfq.kill]
  split
  · exact ⟨k, rfl, h⟩
  · rename_i p _
    have h' : Good (k.setProc p fun q => { q with killed := true }) :=
      h.setProc_inert p fun _ => ⟨rfl, rfl, rfl, rfl⟩
    simp only
    split
    · rename_i hp
      exact h'.makeRunnable hp
    · exact ⟨_, rfl, h'⟩

theorem setPriority (h : Good k) (pid priority : Int) : Good (Mlfq.setPriority k pid priority) := by
  rw [Mlfq.setPriority]
  split
  · exact h
  · split
    · exact h
    · exact h.setProc_inert _ fun _ => ⟨rfl, rfl, rfl, rfl⟩

/-- A step that changes the state of one process that neither is nor becomes `RUNNABLE` and
    is not running. -/
theorem setProc (h : Good k) {f : Proc → Proc} (hp : (k.proc p).state ≠ .RUNNABLE)
    (hrun : (k.proc p).state ≠ .RUNNING) (hs : (f (k.proc p)).state ≠ .RUNNABLE)
    (hf : (f (k.proc p)).alreadyEnqueued = (k.proc p).alreadyEnqueued)
    (hl : (f (k.proc p)).level ≤ 2)
    (hnp : ∀ i, k.np i = some p → (f (k.proc p)).state = .EMBRYO) : Good (k.setProc p f) := by
  refine ⟨h.inv.setProc p (h.inv.not_flag hp) hf hl (fun _ => hs) hnp, fun i hi => ?_⟩
  have hri := h.running i hi
  have hip : i ≠ p := fun hip => hrun (hip ▸ hri)
  rw [setProc_proc_of_ne _ _ _ _ hip]
  exact hri

theorem wait (h : Good k) (hcpu : k.cpuProc = some p) :
    ∃ k', Mlfq.wait k p = .ok k' ∧ Good k' := by
  rw [Mlfq.wait]
  split
  · rename_i c hc
    have hz : (k.proc c).state = .ZOMBIE := by
      have := List.find?_some hc
      simp only [decide_eq_true_eq] at this
      exact this.2
    refine ⟨_, rfl, h.setProc (by simp [hz]) (by simp [hz]) (by simp) rfl (h.inv.level c)
      fun i hi => ?_⟩
    have := h.inv.np i c hi
    rw [hz] at this
    cases this
  · split
    · exact ⟨k, rfl, h⟩
    · exact h.sleep hcpu _

theorem exit (h : Good k) (hcpu : k.cpuProc = some p) (hinit : k.initproc ≠ some p) :
    ∃ k', Mlfq.exit k p = .ok k' ∧ Good k' := by
  rw [Mlfq.exit, if_neg hinit]
  obtain ⟨k₁, hrun₁, h₁, hsame₁⟩ := h.wakeup1 ((k.proc p).parent.map .proc)
  -- passing the children to init only wakes sleepers
  obtain ⟨k₂, hrun₂, h₂, hcpu₂⟩ : ∃ k₂, (List.finRange NPROC).foldlM (reparentOne p) k₁ = .ok k₂ ∧
      Good k₂ ∧ k₂.cpuProc = some p := by
    refine foldlM_ok (I := fun k' => Good k' ∧ k'.cpuProc = some p) ?_ _
      ⟨h₁, hsame₁.cpuProc.trans hcpu⟩
    rintro k' c ⟨h', hcpu'⟩
    rw [reparentOne]
    split
    · have h'' : Good (k'.setProc c fun q => { q with parent := k'.initproc }) :=
        h'.setProc_inert c fun _ => ⟨rfl, rfl, rfl, rfl⟩
      simp only
      split
      · obtain ⟨k₃, hrun₃, h₃, hsame₃⟩ := h''.wakeup1
          ((k'.setProc c fun q => { q with parent := k'.initproc }).initproc.map .proc)
        exact ⟨k₃, hrun₃, h₃, hsame₃.cpuProc.trans hcpu'⟩
      · exact ⟨_, rfl, h'', hcpu'⟩
    · exact ⟨k', rfl, h', hcpu'⟩
  rw [hrun₁, ok_bind, hrun₂, ok_bind]
  exact h₂.giveUp hcpu₂ fun _ => ⟨rfl, rfl⟩

theorem tick (h : Good k) (user : Bool) : ∃ k', Mlfq.tick k user = .ok k' ∧ Good k' := by
  have h₀ : Good { k with globalTick := k.globalTick + 1 } :=
    ⟨h.inv.congr rfl rfl rfl rfl, h.running⟩
  obtain ⟨k₁, hrun₁, h₁, _⟩ := h₀.wakeup1 (some .ticks)
  rw [Mlfq.tick, hrun₁, ok_bind]
  split
  · exact ⟨k₁, rfl, h₁⟩
  · rename_i p hcpu
    split
    · have h₂ : Good (k₁.setProc p fun q => { q with timeAllotment := q.timeAllotment + 1 }) :=
        h₁.setProc_inert p fun _ => ⟨rfl, rfl, rfl, rfl⟩
      simp only
      split
      · exact ⟨_, rfl, h₂⟩
      · exact h₂.yield hcpu
    · exact ⟨k₁, rfl, h₁⟩

theorem allocproc (h : Good k) :
    Mlfq.allocproc k = (none, k) ∨ ∃ c k', Mlfq.allocproc k = (some c, k') ∧ Good k' ∧
      (k'.proc c).state = .EMBRYO ∧ (∀ i, k'.np i ≠ some c) ∧ k'.cpuProc = k.cpuProc := by
  rw [Mlfq.allocproc]
  split
  · exact .inl rfl
  · rename_i c hc
    have hc' : (k.proc c).state = .UNUSED := by
      have := List.find?_some hc
      simpa using this
    have hnp : ∀ i, k.np i ≠ some c := by
      intro i hi
      have := h.inv.np i c hi
      rw [hc'] at this
      cases this
    have h' : Good { k with nextpid := k.nextpid + 1 } :=
      ⟨h.inv.congr rfl rfl rfl rfl, h.running⟩
    exact .inr ⟨c, _, rfl, h'.setProc (by simp [hc']) (by simp [hc']) (by simp) rfl (by simp)
      fun i hi => absurd hi (hnp i), by simp, hnp, rfl⟩

theorem forkAlloc (h : Good k) (hcpu : k.cpuProc = some p) (ok : Bool) :
    Good (Mlfq.forkAlloc k p ok) := by
  rw [Mlfq.forkAlloc]
  rcases h.allocproc with hrun | ⟨c, k', hrun, h', hc, hnp, hcpu'⟩
  · rw [hrun]; exact h
  · rw [hrun]
    simp only
    split
    · refine ⟨h'.inv.setNp (fun i d hd => ?_) (fun i j d hi hj => ?_), h'.running⟩
      · by_cases hip : i = p
        · subst hip
          simp only [Function.update_self, Option.some.injEq] at hd
          exact hd ▸ hc
        · simp only [Function.update_of_ne hip] at hd
          exact h'.inv.np i d hd
      · by_cases hip : i = p
        · by_cases hjp : j = p
          · exact hip.trans hjp.symm
          · subst hip
            simp only [Function.update_self, Option.some.injEq, Function.update_of_ne hjp] at hi hj
            exact absurd (hi ▸ hj) (hnp j)
        · by_cases hjp : j = p
          · subst hjp
            simp only [Function.update_self, Option.some.injEq, Function.update_of_ne hip] at hi hj
            exact absurd (hj ▸ hi) (hnp i)
          · simp only [Function.update_of_ne hip, Function.update_of_ne hjp] at hi hj
            exact h'.inv.npInj i j d hi hj
    · exact h'.setProc (by simp [hc]) (by simp [hc]) (by simp) rfl (h'.inv.level c)
        fun i hi => absurd hi (hnp i)

theorem forkFinish (h : Good k) {c : Slot} (hc : k.np p = some c) (ok : Bool) :
    ∃ k', Mlfq.forkFinish k p ok = .ok k' ∧ Good k' := by
  have hembryo := h.inv.np p c hc
  -- `p` has left `fork`; its child is referenced by nobody else
  have hnp : ∀ i, Function.update k.np p none i ≠ some c := by
    intro i
    by_cases hip : i = p
    · subst hip; simp
    · rw [Function.update_of_ne hip]
      exact fun hi => hip (h.inv.npInj i p c hi hc)
  have hle : ∀ i d, Function.update k.np p none i = some d → k.np i = some d := by
    intro i d hd
    by_cases hip : i = p
    · subst hip; simp at hd
    · rwa [Function.update_of_ne hip] at hd
  have h' : Good { k with np := Function.update k.np p none } :=
    ⟨h.inv.setNp (fun i d hd => h.inv.np i d (hle i d hd))
      fun i j d hi hj => h.inv.npInj i j d (hle i d hi) (hle j d hj), h.running⟩
  rw [Mlfq.forkFinish, hc]
  simp only
  split
  · have h'' : Good ({ k with np := Function.update k.np p none }.setProc c
        fun q => { q with parent := some p }) := h'.setProc_inert c fun _ => ⟨rfl, rfl, rfl, rfl⟩
    obtain ⟨k', hrun, hinv, hsame, hstate⟩ := h''.inv.makeRunnable (p := c) (by simp [hembryo]) hnp
    refine ⟨k', hrun, hinv, fun i hi => ?_⟩
    rw [hsame.cpuProc] at hi
    have hri := h''.running i hi
    have hic : i ≠ c := by
      rintro rfl
      simp [hembryo] at hri
    rw [hstate i hic, hri]
  · exact ⟨_, rfl, h'.setProc (by simp [hembryo]) (by simp [hembryo]) (by simp) rfl
      (h.inv.level c) fun i hi => absurd hi (hnp i)⟩

/-- Every step except `schedulerLock` keeps the invariant, and none of them ends in an endless
    loop over a queue. -/
theorem step (h : Good k) {e : Step} (he : ∀ pw, e ≠ .schedulerLock pw) :
    (∃ k', Mlfq.step k e = .ok k' ∧ Good k') ∨ Mlfq.step k e = .error .blocked ∨
      Mlfq.step k e = .error (.panic "init exiting") := by
  have hby : ∀ f : Slot → Except Stop Kernel, (∀ p, k.cpuProc = some p →
      (∃ k', f p = .ok k' ∧ Good k') ∨ f p = .error .blocked ∨
        f p = .error (.panic "init exiting")) →
      (∃ k', byProc k f = .ok k' ∧ Good k') ∨ byProc k f = .error .blocked ∨
        byProc k f = .error (.panic "init exiting") := by
    intro f hf
    cases hcpu : k.cpuProc with
    | none => exact .inr (.inl (by rw [byProc, hcpu]))
    | some p =>
      rw [byProc, hcpu]
      exact hf p hcpu
  cases e with
  | forkAlloc ok => exact hby _ fun p hp => .inl ⟨_, rfl, h.forkAlloc hp ok⟩
  | forkFinish ok =>
    refine hby _ fun p hp => ?_
    cases hc : k.np p with
    | none => exact .inr (.inl (by rw [Mlfq.forkFinish, hc]))
    | some c => exact .inl (h.forkFinish hc ok)
  | exit =>
    refine hby _ fun p hp => ?_
    by_cases hinit : k.initproc = some p
    · exact .inr (.inr (by rw [Mlfq.exit, if_pos hinit]))
    · exact .inl (h.exit hp hinit)
  | wait => exact hby _ fun p hp => .inl (h.wait hp)
  | sleep chan => exact hby _ fun p hp => .inl (h.sleep hp chan)
  | wakeup chan =>
    obtain ⟨k', hrun, h', _⟩ := h.wakeup1 (some chan)
    exact .inl ⟨k', hrun, h'⟩
  | kill pid => exact hby _ fun p _ => .inl (h.kill pid)
  | yield => exact hby _ fun p hp => .inl (h.yield hp)
  | setPriority pid pr => exact hby _ fun p _ => .inl ⟨_, rfl, h.setPriority pid pr⟩
  | schedulerLock pw => exact absurd rfl (he pw)
  | schedulerUnlock pw =>
    refine hby _ fun p _ => .inl ⟨k, ?_, h⟩
    rw [schedulerUnlock, if_pos h.inv.unlocked]
  | tick user => exact .inl (h.tick user)
  | schedule =>
    cases hcpu : k.cpuProc with
    | none => exact .inl (h.schedule hcpu)
    | some p => exact .inr (.inl (by rw [Mlfq.step, Mlfq.schedule, hcpu]; rfl))

/-- The invariant when the scheduler starts. -/
theorem of_init (h : Init k) : Good k := by
  have hboot : Good boot := by
    refine ⟨⟨⟨fun _ => [], ⟨fun l => by simp [boot], by simp, by simp [boot]⟩, by simp⟩, ?_, by simp,
      ?_, rfl, by simp [boot], by simp [boot]⟩, by simp [boot]⟩
    · simp [boot]
    · simp [boot]
  rw [Init, userinit] at h
  rcases hboot.allocproc with hrun | ⟨c, k₁, hrun, h₁, hc, hnp, _⟩
  · rw [hrun] at h; cases h
  · rw [hrun] at h
    have hinv : Inv none { k₁ with initproc := some c } := h₁.inv.congr rfl rfl rfl rfl
    obtain ⟨k', hrun', hinv', hsame, hstate⟩ := hinv.makeRunnable (p := c) (by simp [hc]) hnp
    simp only [hrun', Except.ok.injEq] at h
    subst h
    refine ⟨hinv', fun i hi => ?_⟩
    rw [hsame.cpuProc] at hi
    have hri := h₁.running i hi
    have hic : i ≠ c := by
      rintro rfl
      rw [hc] at hri
      cases hri
    rw [hstate i hic]
    exact hri

end Good

/-! ### Every run -/

/-- The three queues of `k` are the finite lists `q`, and they hold exactly the `RUNNABLE`
    processes, each once and at its level. -/
structure QueueInvariant (k : Kernel) (q : Fin 3 → List Slot) : Prop where
  finite : ∀ l : Fin 3, Chain k.next (k.levelQueue l) (q l)
  nodup : ∀ l, (q l).Nodup
  disjoint : ∀ l l', l ≠ l' → (q l).Disjoint (q l')
  queued : ∀ p, (∃ l, p ∈ q l) ↔ (k.proc p).alreadyEnqueued = true
  runnable : ∀ p, (k.proc p).alreadyEnqueued = true ↔ (k.proc p).state = .RUNNABLE
  level : ∀ l : Fin 3, ∀ p ∈ q l, (k.proc p).level = l

/-- The step is not a call of `schedulerLock`. -/
def NoSchedulerLock (_ : Kernel) (e : Step) : Prop := ∀ pw, e ≠ .schedulerLock pw

/-- **The queue invariant.** In every state of every run without `schedulerLock` the three
    queues are finite and disjoint and hold exactly the `RUNNABLE` processes. -/
theorem queues_hold_runnable {k : Kernel}
    (h : Reachable Init (Steps step NoSchedulerLock) k) : ∃ q, QueueInvariant k q := by
  have hgood : Good k := by
    refine h.invariant (fun _ => Good.of_init) ?_
    rintro k k' hk ⟨e, he, hstep⟩
    rcases hk.step he with ⟨k'', hrun, hk''⟩ | hblk | hpan
    · rw [hrun, Except.ok.injEq] at hstep
      exact hstep ▸ hk''
    · rw [hblk] at hstep; cases hstep
    · rw [hpan] at hstep; cases hstep
  obtain ⟨q, hQ, hlev⟩ := hgood.inv.queues
  refine ⟨fun l => q l, fun l => hQ.chain l, fun l => (hQ.chain l).nodup, fun l l' hne => ?_,
    fun p => ?_, fun p => hgood.inv.runnable p (by simp), fun l p hp => hlev l p hp⟩
  · exact hQ.disjoint l l' fun hl => hne (Fin.ext hl)
  · rw [hQ.flag p]
    constructor
    · rintro ⟨l, hp⟩; exact ⟨l, hp⟩
    · rintro ⟨l, hp⟩
      have hl := hgood.inv.level p
      rw [hlev l p hp] at hl
      exact ⟨⟨l, by omega⟩, hp⟩

/-- A run of `init` that forks a child and is preempted by the timer: both are queued. -/
theorem queues_hold_runnable_fork :
    ∃ k, (∃ q, QueueInvariant k q) ∧ (k.proc 0).state = .RUNNABLE ∧
      (k.proc 1).state = .RUNNABLE := by
  obtain ⟨k₀, h₀⟩ : ∃ k, userinit boot = .ok k := ⟨_, rfl⟩
  obtain ⟨k₁, h₁⟩ : ∃ k, exec step k₀ [.schedule, .forkAlloc true, .forkFinish true, .tick true]
      = .ok k := by
    cases h₀; exact ⟨_, rfl⟩
  refine ⟨k₁, queues_hold_runnable (reachable_exec (.start h₀) ?_ h₁), ?_, ?_⟩
  · intro _ e he
    simp only [List.mem_cons, List.not_mem_nil, or_false] at he
    rcases he with rfl | rfl | rfl | rfl <;> exact fun _ => by simp
  · cases h₀; cases h₁; rfl
  · cases h₀; cases h₁; rfl

end Xv6.Mlfq
