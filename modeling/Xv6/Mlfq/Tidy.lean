import Xv6.Mlfq.Lock

namespace Xv6.Mlfq

open Xv6.Lib

/-!
# MLFQ scheduler — who is queued, operation by operation

When the three queues are finite lists without common processes and `already_enqueued` says who is
in them, the queue operations can be followed by that flag alone.

* `Tidy` — the queues are in order, in whatever order their processes are;
* `Tidy.queued_iff` — then the flag says who is queued;
* `Tidy.wakeup1`, `Tidy.comeBack`, `Tidy.schedule` — what waking up, coming back to `scheduler()`
  and being dispatched do to the flags, while the scheduler is not locked.
-/

variable {k k' : Kernel} {p x : Slot}

/-- The process is in one of the three queues. -/
def Queued (k : Kernel) (x : Slot) : Prop := ∃ l < 3, LinkedIn k l x

/-- The three queues are disjoint finite lists, and `already_enqueued` marks their processes. -/
structure Tidy (k : Kernel) : Prop where
  queues : ∃ q, Queues k q ∧ ∀ l, 3 ≤ l → q l = []
  level : ∀ i, (k.proc i).level ≤ 2

/-- The process sleeps on `chan`. -/
def SleepsOn (k : Kernel) (chan : Option Chan) (i : Slot) : Prop :=
  (k.proc i).state = .SLEEPING ∧ (k.proc i).chan = chan

instance (k : Kernel) (chan : Option Chan) (i : Slot) : Decidable (SleepsOn k chan i) :=
  inferInstanceAs (Decidable (_ ∧ _))

theorem Queues.linkedIn_iff {q : Nat → List Slot} (h : Queues k q) {l : Nat} :
    LinkedIn k l x ↔ x ∈ q l := (h.chain l).linked_iff

/-- A process that is not queued is linked in front of `level_queue[0]`. -/
theorem Queues.insertHead {q : Nat → List Slot} (hQ : Queues k q)
    (hp : (k.proc p).alreadyEnqueued = false) {f : Proc → Proc}
    (hnext : (f (k.proc p)).next = k.levelQueue 0) (hflag : (f (k.proc p)).alreadyEnqueued = true) :
    Queues ((k.setProc p f).setQueue 0 (some p)) (Function.update q 0 (p :: q 0)) := by
  have hout : ∀ l, p ∉ q l := fun l => hQ.not_mem hp l
  have hproc : ∀ i, i ≠ p → ((k.setProc p f).setQueue 0 (some p)).proc i = k.proc i := fun i hi =>
    setProc_proc_of_ne _ _ _ _ hi
  have hself : ((k.setProc p f).setQueue 0 (some p)).proc p = f (k.proc p) :=
    setProc_proc_self k p f
  refine hQ.update ?_ ?_ ?_ ?_ ?_
  · have hnext' : ((k.setProc p f).setQueue 0 (some p)).next p = k.levelQueue 0 := by
      rw [Kernel.next, hself, hnext]
    rw [chain_cons_iff, hnext']
    refine ⟨by simp, (hQ.chain 0).congr fun a ha => ?_⟩
    rw [Kernel.next, hproc a fun hap => hout 0 (hap ▸ ha), Kernel.next]
  · intro l' hl'
    simp [hl']
  · intro l' _ a ha
    rw [hproc a fun hap => hout l' (hap ▸ ha)]
  · intro l' hl' a ha ha'
    rcases List.mem_cons.mp ha with rfl | ha
    · exact hout l' ha'
    · exact hl' (hQ.level_unique ha' ha)
  · intro a
    rw [List.mem_cons]
    by_cases hap : a = p
    · subst hap
      rw [hself]
      exact ⟨fun _ => .inl (.inl rfl), fun _ => hflag⟩
    · rw [hproc a hap, hQ.flag a]
      constructor
      · rintro ⟨l, hl⟩
        by_cases h0 : l = 0
        · subst h0; exact .inl (.inr hl)
        · exact .inr ⟨l, h0, hl⟩
      · rintro ((rfl | hl) | ⟨l, _, hl⟩)
        · exact absurd rfl hap
        · exact ⟨0, hl⟩
        · exact ⟨l, hl⟩

namespace Tidy

/-- The queues of a table in which only `level_queue[0]` has processes. -/
theorem of_first (xs : List Slot) (hwalk : walkList k.next NPROC (k.levelQueue 0) = some xs)
    (hout : ∀ l, k.levelQueue (l + 1) = none)
    (hflag : ∀ i, (k.proc i).alreadyEnqueued = true ↔ i ∈ xs)
    (hlevel : ∀ i, (k.proc i).level ≤ 2) : Tidy k := by
  let q : Nat → List Slot := fun l => if l = 0 then xs else []
  have hq : ∀ l i, i ∈ q l → l = 0 := fun l i hi => by
    by_contra hl
    simp only [q, if_neg hl] at hi
    cases hi
  refine ⟨⟨q, ⟨fun l => ?_, fun l l' hne i hi hi' => hne ((hq l i hi).trans (hq l' i hi').symm),
    fun i => ?_⟩, fun l hl => if_neg (by omega)⟩, hlevel⟩
  · cases l with
    | zero => exact walkList_some hwalk
    | succ l =>
      rw [hout l]
      exact chain_nil_iff.mpr rfl
  · rw [hflag]
    constructor
    · exact fun hi => ⟨0, hi⟩
    · rintro ⟨l, hl⟩
      rwa [hq l i hl] at hl

theorem queued_iff (h : Tidy k) : Queued k x ↔ (k.proc x).alreadyEnqueued = true := by
  obtain ⟨q, hQ, hnil⟩ := h.queues
  rw [hQ.flag x]
  constructor
  · rintro ⟨l, _, hl⟩
    exact ⟨l, hQ.linkedIn_iff.mp hl⟩
  · rintro ⟨l, hl⟩
    refine ⟨l, ?_, hQ.linkedIn_iff.mpr hl⟩
    by_contra hlt
    rw [hnil l (by omega)] at hl
    cases hl

/-- A process is in one queue only. -/
theorem level_unique (h : Tidy k) {l l' : Nat} (hl : LinkedIn k l x) (hl' : LinkedIn k l' x) :
    l = l' := by
  obtain ⟨q, hQ, -⟩ := h.queues
  exact hQ.level_unique (hQ.linkedIn_iff.mp hl) (hQ.linkedIn_iff.mp hl')

/-- Following the links from a process in a queue comes to an end. -/
theorem chainFrom (h : Tidy k) (hx : Queued k x) :
    ∃ xs, Chain k.next (some x) xs ∧ xs.length ≤ NPROC ∧ ∀ y ∈ xs, Queued k y := by
  obtain ⟨q, hQ, -⟩ := h.queues
  obtain ⟨l, hl, hlink⟩ := hx
  obtain ⟨us, vs, hq⟩ := List.append_of_mem (hQ.linkedIn_iff.mp hlink)
  have hc := hQ.chain l
  have hlen := hQ.length_le l
  rw [hq] at hc hlen
  obtain ⟨y, -, hc⟩ := chain_append_iff.mp hc
  rw [(chain_cons_iff.mp hc).1] at hc
  refine ⟨x :: vs, hc, ?_, fun y hy => ⟨l, hl, hQ.linkedIn_iff.mpr ?_⟩⟩
  · rw [List.length_append] at hlen
    omega
  · rw [hq]
    exact List.mem_append_right _ hy

theorem congr (h : Tidy k) (hproc : ∀ i, (k'.proc i).next = (k.proc i).next ∧
      (k'.proc i).alreadyEnqueued = (k.proc i).alreadyEnqueued ∧ (k'.proc i).level ≤ 2)
    (hqueue : k'.levelQueue = k.levelQueue) : Tidy k' := by
  obtain ⟨q, hQ, hnil⟩ := h.queues
  exact ⟨⟨q, hQ.congr (fun i => (hproc i).1) (fun i => (hproc i).2.1) hqueue, hnil⟩,
    fun i => (hproc i).2.2⟩

/-- Other fields of a process do not matter. -/
theorem setProc (h : Tidy k) {f : Proc → Proc} (hf : ∀ q, (f q).next = q.next ∧
      (f q).alreadyEnqueued = q.alreadyEnqueued) (hl : (f (k.proc p)).level ≤ 2) :
    Tidy (k.setProc p f) := by
  refine h.congr (fun i => ?_) rfl
  by_cases hip : i = p
  · subst hip
    rw [setProc_proc_self]
    exact ⟨(hf _).1, (hf _).2, hl⟩
  · rw [setProc_proc_of_ne _ _ _ _ hip]
    exact ⟨rfl, rfl, h.level i⟩

/-- Nothing matters of a process that is not queued. -/
theorem setProc_out (h : Tidy k) {f : Proc → Proc} (hp : (k.proc p).alreadyEnqueued = false)
    (hf : (f (k.proc p)).alreadyEnqueued = false) (hl : (f (k.proc p)).level ≤ 2) :
    Tidy (k.setProc p f) := by
  obtain ⟨q, hQ, hnil⟩ := h.queues
  refine ⟨⟨q, hQ.setProc_out hp hf, hnil⟩, fun i => ?_⟩
  by_cases hip : i = p
  · subst hip; rwa [setProc_proc_self]
  · rw [setProc_proc_of_ne _ _ _ _ hip]; exact h.level i

/-- `enqueue` adds the process. -/
theorem enqueue (h : Tidy k) {l : Nat} (hl : l < 3) :
    ∃ k', Mlfq.enqueue k p l = .ok k' ∧ Tidy k' ∧ SameButLinks k k' ∧
      ∀ i, (k'.proc i).alreadyEnqueued = true ↔ (k.proc i).alreadyEnqueued = true ∨ i = p := by
  by_cases hp : (k.proc p).alreadyEnqueued = true
  · refine ⟨k, enqueue_of_flag hp, h, .refl k, fun i => ⟨.inl, ?_⟩⟩
    rintro (hi | rfl)
    · exact hi
    · exact hp
  · obtain ⟨q, hQ, hnil⟩ := h.queues
    obtain ⟨k', hrun, hsame, hQ'⟩ := enqueue_spec hQ l (by simpa using hp)
    refine ⟨k', hrun, ⟨⟨_, hQ', fun l' hl' => ?_⟩, fun i => ?_⟩, hsame, fun i => ?_⟩
    · rw [Function.update_of_ne (by omega), hnil l' hl']
    · rw [hsame.level_eq i]; exact h.level i
    · rw [hQ'.flag i, hQ.flag i]
      constructor
      · rintro ⟨l', hi⟩
        by_cases hll : l' = l
        · subst hll
          rw [Function.update_self, List.mem_append, List.mem_singleton] at hi
          exact hi.imp_left fun hi => ⟨l', hi⟩
        · rw [Function.update_of_ne hll] at hi
          exact .inl ⟨l', hi⟩
      · rintro (⟨l', hi⟩ | rfl)
        · refine ⟨l', ?_⟩
          by_cases hll : l' = l
          · subst hll; rw [Function.update_self]; simp [hi]
          · rwa [Function.update_of_ne hll]
        · exact ⟨l, by rw [Function.update_self]; simp⟩

/-- What has been woken up in a table of processes. -/
structure Woken (W : Slot → Prop) (k k' : Kernel) : Prop extends SameGlobals k k' where
  tidy : Tidy k'
  flag : ∀ i, (k'.proc i).alreadyEnqueued = true ↔ (k.proc i).alreadyEnqueued = true ∨ W i
  woken : ∀ i, W i → k'.proc i = { k.proc i with
    state := .RUNNABLE, next := (k'.proc i).next, alreadyEnqueued := (k'.proc i).alreadyEnqueued }
  others : ∀ i, ¬ W i → k'.proc i = { k.proc i with
    next := (k'.proc i).next, alreadyEnqueued := (k'.proc i).alreadyEnqueued }

/-- `wakeup1` queues those who sleep on the channel. -/
theorem wakeup1 (h : Tidy k) (chan : Option Chan) :
    ∃ k', Mlfq.wakeup1 k chan = .ok k' ∧ Woken (SleepsOn k chan) k k' := by
  -- the sleepers among the processes that the loop has reached are awake
  have hloop : ∀ (xs : List Slot) (k₀ : Kernel) (done : Slot → Prop),
      Woken (fun i => SleepsOn k chan i ∧ done i) k k₀ →
      ∃ k', xs.foldlM (wakeOne chan) k₀ = .ok k' ∧
        Woken (fun i => SleepsOn k chan i ∧ (done i ∨ i ∈ xs)) k k' := by
    intro xs
    induction xs with
    | nil =>
      intro k₀ done h₀
      refine ⟨k₀, rfl, ?_⟩
      simpa using h₀
    | cons y xs ih =>
      intro k₀ done h₀
      have hstep : ∃ k₁, wakeOne chan k₀ y = .ok k₁ ∧
          Woken (fun i => SleepsOn k chan i ∧ (done i ∨ i = y)) k k₁ := by
        rw [wakeOne]
        by_cases hy : SleepsOn k chan y ∧ ¬ done y
        · have hproc := h₀.others y fun hd => hy.2 hd.2
          have hsleep : (k₀.proc y).state = .SLEEPING ∧ (k₀.proc y).chan = chan := by
            rw [hproc]; exact hy.1
          rw [if_pos hsleep, makeRunnable]
          have h₁ : Tidy (k₀.setProc y fun q => { q with state := .RUNNABLE }) :=
            h₀.tidy.setProc (fun _ => ⟨rfl, rfl⟩) (h₀.tidy.level y)
          obtain ⟨k₁, hrun, htidy, hsame, hflag⟩ :=
            h₁.enqueue (p := y) (l := (k₀.proc y).level) (by have := h₀.tidy.level y; omega)
          have hflag₀ : ∀ i, ((k₀.setProc y fun q => { q with state := .RUNNABLE }).proc
              i).alreadyEnqueued = (k₀.proc i).alreadyEnqueued := fun i => by
            by_cases hiy : i = y
            · subst hiy; rw [setProc_proc_self]
            · rw [setProc_proc_of_ne _ _ _ _ hiy]
          refine ⟨k₁, hrun, (h₀.toSameGlobals.trans (.setProc k₀ y _)).trans hsame.toSameGlobals,
            htidy, fun i => ?_, fun i hi => ?_, fun i hi => ?_⟩
          · rw [hflag, hflag₀, h₀.flag]
            constructor
            · rintro ((hi | hi) | rfl)
              · exact .inl hi
              · exact .inr ⟨hi.1, .inl hi.2⟩
              · exact .inr ⟨hy.1, .inr rfl⟩
            · rintro (hi | ⟨hi, hd | rfl⟩)
              · exact .inl (.inl hi)
              · exact .inl (.inr ⟨hi, hd⟩)
              · exact .inr rfl
          · rw [hsame.proc i]
            by_cases hiy : i = y
            · subst hiy
              rw [setProc_proc_self, hproc]
            · rw [setProc_proc_of_ne _ _ _ _ hiy, h₀.woken i ⟨hi.1, hi.2.resolve_right hiy⟩]
          · have hiy : i ≠ y := fun hiy => hi ⟨hiy ▸ hy.1, .inr hiy⟩
            rw [hsame.proc i, setProc_proc_of_ne _ _ _ _ hiy,
              h₀.others i fun hd => hi ⟨hd.1, .inl hd.2⟩]
        · have hno : ¬ ((k₀.proc y).state = .SLEEPING ∧ (k₀.proc y).chan = chan) := by
            by_cases hd : SleepsOn k chan y ∧ done y
            · rw [h₀.woken y hd]; simp
            · rw [h₀.others y hd]
              intro hs
              exact hy ⟨hs, fun hdone => hd ⟨hs, hdone⟩⟩
          rw [if_neg hno]
          have heq : (fun i => SleepsOn k chan i ∧ (done i ∨ i = y)) =
              fun i => SleepsOn k chan i ∧ done i := by
            funext i
            refine propext (and_congr_right fun hs => ⟨?_, .inl⟩)
            rintro (hd | rfl)
            · exact hd
            · by_contra hd
              exact hy ⟨hs, hd⟩
          exact ⟨k₀, rfl, heq ▸ h₀⟩
      obtain ⟨k₁, hrun₁, h₁⟩ := hstep
      obtain ⟨k', hrun, h'⟩ := ih k₁ (fun i => done i ∨ i = y) h₁
      refine ⟨k', by rw [List.foldlM_cons, hrun₁]; exact hrun, ?_⟩
      simpa only [List.mem_cons, or_assoc] using h'
  have hstart : Woken (fun i => SleepsOn k chan i ∧ False) k k :=
    ⟨.refl k, h, fun i => by simp, fun i hi => hi.2.elim, fun i _ => rfl⟩
  obtain ⟨k', hrun, h'⟩ := hloop (List.finRange NPROC) k (fun _ => False) hstart
  refine ⟨k', hrun, ?_⟩
  simpa using h'

/-- The process `p` has come back to a scheduler that is not locked. -/
structure CameBack (k k' : Kernel) (p : Slot) : Prop where
  tidy : Tidy k'
  free : k'.schedulerLocked = false
  cpuProc : k'.cpuProc = none
  flag : ∀ i, (k'.proc i).alreadyEnqueued = true ↔ (k.proc i).alreadyEnqueued = true ∨ i = p
  state : ∀ i, (k'.proc i).state = (k.proc i).state
  head : ∀ a, k.levelQueue 0 = some a → k'.levelQueue 0 = some a

/-- A change of level or priority moves nobody while the scheduler is not locked. -/
theorem changeLevel (h : Tidy k) (hfree : k.schedulerLocked = false) (p : Slot) :
    ∃ k', Mlfq.changeLevel k p = .ok k' ∧ Tidy k' ∧ SameRoles k k' ∧
      k'.levelQueue = k.levelQueue ∧
      ∀ i, (k'.proc i).alreadyEnqueued = (k.proc i).alreadyEnqueued := by
  have hset : ∀ f : Proc → Proc, (∀ q, (f q).next = q.next ∧ (f q).alreadyEnqueued = q.alreadyEnqueued
      ∧ (f q).state = q.state ∧ (f q).lockScheduler = q.lockScheduler) →
      (f (k.proc p)).level ≤ 2 → Tidy (k.setProc p f) ∧ SameRoles k (k.setProc p f) ∧
        (k.setProc p f).levelQueue = k.levelQueue ∧
        ∀ i, ((k.setProc p f).proc i).alreadyEnqueued = (k.proc i).alreadyEnqueued := by
    intro f hf hl
    refine ⟨h.setProc (fun q => ⟨(hf q).1, (hf q).2.1⟩) hl, .setProc k p fun q => (hf q).2.2, rfl,
      fun i => ?_⟩
    by_cases hip : i = p
    · subst hip; rw [setProc_proc_self, (hf _).2.1]
    · rw [setProc_proc_of_ne _ _ _ _ hip]
  have hleave : leaveLevel k p = .ok k := by rw [leaveLevel, if_neg (by simp [hfree])]
  rw [Mlfq.changeLevel, hleave]
  split
  · rename_i hlow
    exact ⟨_, rfl, hset _ (fun _ => ⟨rfl, rfl, rfl, rfl⟩) (by simp only; omega)⟩
  · split
    · exact ⟨_, rfl, hset _ (fun _ => ⟨rfl, rfl, rfl, rfl⟩) (h.level p)⟩
    · exact ⟨k, rfl, h, .refl k, rfl, fun _ => rfl⟩

/-- A boost that is due brings everybody to `level_queue[0]`. -/
theorem boostIfDue (h : Tidy k) (hfree : k.schedulerLocked = false) :
    ∃ k', Mlfq.boostIfDue k = .ok k' ∧ Tidy k' ∧ k'.schedulerLocked = false ∧
      k'.cpuProc = k.cpuProc ∧ (∀ i, (k'.proc i).state = (k.proc i).state ∧
        (k'.proc i).alreadyEnqueued = (k.proc i).alreadyEnqueued) ∧
      ∀ a, k.levelQueue 0 = some a → k'.levelQueue 0 = some a := by
  rw [Mlfq.boostIfDue]
  split
  · obtain ⟨q, hQ, hnil⟩ := h.queues
    obtain ⟨k₁, hrun, hQ₁, hsame, hproc, -⟩ := boostQueues_spec hQ
    have hfree₁ : k₁.schedulerLocked = false := hsame.schedulerLocked.trans hfree
    have hboost : unlockBoosted k₁ = .ok k₁ := by
      rw [unlockBoosted, if_neg (by simp [hfree₁])]
    rw [boost, hrun, ok_bind, hboost, ok_bind]
    have htidy : Tidy k₁ := by
      refine ⟨⟨_, hQ₁, fun l hl => ?_⟩, fun i => ?_⟩
      · rw [boosted, if_neg (by omega), if_neg (by omega), hnil l hl]
      · rw [hproc i]
        simp only [boostProc]
        split
        · exact h.level i
        · split
          · simp [resetLevel]
          · exact h.level i
    refine ⟨_, rfl, htidy.congr (fun i => ⟨rfl, rfl, htidy.level i⟩) rfl, hfree₁, hsame.cpuProc,
      fun i => ?_, fun a ha => ?_⟩
    · show (k₁.proc i).state = _ ∧ (k₁.proc i).alreadyEnqueued = _
      rw [hproc i]
      simp only [boostProc]
      split
      · exact ⟨rfl, rfl⟩
      · split <;> exact ⟨rfl, rfl⟩
    · have hc := hQ.chain 0
      rw [ha] at hc
      obtain ⟨t, ht, _⟩ := chain_some_iff.mp hc
      have hc₁ := hQ₁.chain 0
      rw [boosted, if_pos rfl, ht, List.cons_append] at hc₁
      exact (chain_cons_iff.mp hc₁).1
  · exact ⟨k, rfl, h, hfree, rfl, fun _ => ⟨rfl, rfl⟩, fun _ ha => ha⟩

/-- `enqueue` keeps the head of a queue that is not empty. -/
theorem enqueue_head {l l' : Nat} {a : Slot} (hrun : Mlfq.enqueue k p l = .ok k')
    (ha : k.levelQueue l' = some a) : k'.levelQueue l' = some a := by
  rw [Mlfq.enqueue] at hrun
  split at hrun
  · cases hrun; exact ha
  · split at hrun
    · rename_i hnone
      cases hrun
      have hll : l' ≠ l := fun hll => by
        rw [hll, hnone] at ha
        cases ha
      simp [hll, ha]
    · split at hrun
      · cases hrun
      · cases hrun; exact ha

/-- A `RUNNABLE` process that comes back is queued. -/
theorem comeBack (h : Tidy k) (hfree : k.schedulerLocked = false)
    (hs : (k.proc p).state = .RUNNABLE) : ∃ k', schedReturn k p = .ok k' ∧ CameBack k k' p := by
  have h₀ : Tidy { k with cpuProc := none } := h.congr (fun i => ⟨rfl, rfl, h.level i⟩) rfl
  obtain ⟨k₂, hk₂, h₂, hroles, hqueue, hflag₂⟩ := h₀.changeLevel hfree p
  have hs₂ : (k₂.proc p).state = .RUNNABLE := (hroles.state p).trans hs
  obtain ⟨k₃, hk₃, h₃, hsame, hflag₃⟩ :=
    h₂.enqueue (p := p) (l := (k₂.proc p).level) (by have := h₂.level p; omega)
  have hfree₃ : k₃.schedulerLocked = false :=
    (hsame.schedulerLocked.trans hroles.schedulerLocked).trans hfree
  have hforget : forgetP k₃ = { k₃ with schedP := none } := by
    rw [forgetP, if_neg (by simp [hfree₃])]
  have h₄ : Tidy { k₃ with schedP := none } := h₃.congr (fun i => ⟨rfl, rfl, h₃.level i⟩) rfl
  obtain ⟨k', hk', h', hfree', hcpu', hproc', hhead'⟩ := h₄.boostIfDue hfree₃
  refine ⟨k', schedReturn_eq_ok.mpr ⟨_, k₂, k₃, ?_, hk₂, ?_, hforget ▸ hk'⟩, h', hfree', ?_,
    fun i => ?_, fun i => ?_, fun a ha => hhead' a ?_⟩
  · rw [giveUpLock, if_neg (by simp [hfree])]
  · rw [requeue, if_pos hs₂, hk₃]
  · rw [hcpu']
    exact hsame.cpuProc.trans hroles.cpuProc
  · rw [(hproc' i).2]
    show (k₃.proc i).alreadyEnqueued = true ↔ _
    rw [hflag₃, hflag₂]
  · rw [(hproc' i).1]
    exact (hsame.state_eq i).trans (hroles.state i)
  · have hhead₃ : k₃.levelQueue 0 = some a := enqueue_head hk₃ (by rw [hqueue]; exact ha)
    exact hhead₃

/-- The process `x` has been dispatched by a scheduler that is not locked. -/
structure Dispatched (k k' : Kernel) (x : Slot) : Prop where
  tidy : Tidy k'
  free : k'.schedulerLocked = false
  cpuProc : k'.cpuProc = some x
  queued : (k.proc x).alreadyEnqueued = true
  flag : ∀ i, (k'.proc i).alreadyEnqueued = true ↔ (k.proc i).alreadyEnqueued = true ∧ i ≠ x
  next : (k'.proc x).next = none
  running : (k'.proc x).state = .RUNNING

/-- Removing a process from its queue. -/
theorem remove (h : Tidy k) {q : Nat → List Slot} (hQ : Queues k q) (hnil : ∀ l, 3 ≤ l → q l = [])
    {l : Nat} {xs : List Slot} (hsame : SameButLinks k k')
    (hQ' : Queues k' (Function.update q l xs)) (hx : x ∈ q l)
    (hxs : ∀ i, i ∈ xs ↔ i ∈ q l ∧ i ≠ x) :
    Tidy k' ∧ (k.proc x).alreadyEnqueued = true ∧
      ∀ i, (k'.proc i).alreadyEnqueued = true ↔ (k.proc i).alreadyEnqueued = true ∧ i ≠ x := by
  have hl : l < 3 := by
    by_contra hlt
    rw [hnil l (by omega)] at hx
    cases hx
  refine ⟨⟨⟨_, hQ', fun l' hl' => ?_⟩, fun i => ?_⟩, (hQ.flag x).mpr ⟨l, hx⟩, fun i => ?_⟩
  · rw [Function.update_of_ne (by omega), hnil l' hl']
  · rw [hsame.level_eq i]; exact h.level i
  · rw [hQ'.flag i, hQ.flag i]
    constructor
    · rintro ⟨l', hi⟩
      by_cases hll : l' = l
      · subst hll
        rw [Function.update_self, hxs] at hi
        exact ⟨⟨l', hi.1⟩, hi.2⟩
      · rw [Function.update_of_ne hll] at hi
        exact ⟨⟨l', hi⟩, fun hix => hll (hQ.level_unique (hix ▸ hi) hx)⟩
    · rintro ⟨⟨l', hi⟩, hix⟩
      refine ⟨l', ?_⟩
      by_cases hll : l' = l
      · subst hll
        rw [Function.update_self, hxs]
        exact ⟨hi, hix⟩
      · rwa [Function.update_of_ne hll]

/-- What the scheduler picks while it is not locked it takes out of its queue. -/
theorem pick (h : Tidy k) (hfree : k.schedulerLocked = false) (hrun : Mlfq.pick k = .ok (some x, k')) :
    Tidy k' ∧ SameButLinks k k' ∧ (k.proc x).alreadyEnqueued = true ∧ (k'.proc x).next = none ∧
      ∀ i, (k'.proc i).alreadyEnqueued = true ↔ (k.proc i).alreadyEnqueued = true ∧ i ≠ x := by
  obtain ⟨q, hQ, hnil⟩ := h.queues
  -- a queue that is not empty gives its first process
  have hfirst : ∀ l y ys, q l = y :: ys → dequeue k l = (some x, k') →
      Tidy k' ∧ SameButLinks k k' ∧ (k.proc x).alreadyEnqueued = true ∧ (k'.proc x).next = none ∧
      ∀ i, (k'.proc i).alreadyEnqueued = true ↔ (k.proc i).alreadyEnqueued = true ∧ i ≠ x := by
    intro l y ys hq hdeq
    obtain ⟨k₁, hk₁, hsame, hnext, -, hQ₁⟩ := dequeue_cons hQ hq
    rw [hk₁, Prod.mk.injEq, Option.some.injEq] at hdeq
    obtain ⟨rfl, rfl⟩ := hdeq
    have hnd := (hQ.chain l).nodup
    rw [hq, List.nodup_cons] at hnd
    obtain ⟨htidy, hflag, hflags⟩ := h.remove (x := y) hQ hnil hsame hQ₁ (by simp [hq]) fun i => by
      rw [hq, List.mem_cons]
      constructor
      · exact fun hi => ⟨.inr hi, fun hiy => hnd.1 (by rwa [← hiy])⟩
      · exact fun hi => hi.1.resolve_left hi.2
    exact ⟨htidy, hsame, hflag, hnext, hflags⟩
  rw [Mlfq.pick, if_neg (by simp [hfree])] at hrun
  cases hq0 : q 0 with
  | cons y ys =>
    obtain ⟨k₁, hk₁, -⟩ := dequeue_cons hQ hq0
    rw [hk₁] at hrun
    cases hrun
    exact hfirst 0 _ ys hq0 hk₁
  | nil =>
    rw [dequeue_nil hQ hq0] at hrun
    simp only at hrun
    cases hq1 : q 1 with
    | cons y ys =>
      obtain ⟨k₁, hk₁, -⟩ := dequeue_cons hQ hq1
      rw [hk₁] at hrun
      cases hrun
      exact hfirst 1 _ ys hq1 hk₁
    | nil =>
      rw [dequeue_nil hQ hq1] at hrun
      simp only [walkList_eq (hQ.chain 2) (hQ.length_le 2)] at hrun
      rcases highPriority_spec k (q 2) with ⟨-, hnone⟩ | ⟨z, hz, hsome⟩
      · rw [hnone] at hrun
        cases hrun
      · rw [hsome] at hrun
        obtain ⟨k₁, hk₁, hrun⟩ := bind_eq_ok.mp hrun
        cases hrun
        obtain ⟨k₂, hk₂, hsame, hnext, -, hQ₂⟩ := dequeueSpecific_spec hQ hz
        cases hk₁.symm.trans hk₂
        obtain ⟨htidy, hflag, hflags⟩ := h.remove hQ hnil hsame hQ₂ hz fun i => by
          rw [(hQ.chain 2).nodup.mem_erase_iff, and_comm]
        exact ⟨htidy, hsame, hflag, hnext, hflags⟩

theorem schedule (h : Tidy k) (hfree : k.schedulerLocked = false)
    (hrun : Mlfq.schedule k = .ok k') (hx : k'.cpuProc = some x) : Dispatched k k' x := by
  rw [Mlfq.schedule] at hrun
  split at hrun
  · cases hrun
  rename_i hcpu
  rw [Option.isSome_iff_ne_none, not_not] at hcpu
  simp only [bind_eq_ok, Prod.exists] at hrun
  obtain ⟨r, k₁, hpick, hrun⟩ := hrun
  cases r with
  | none =>
    cases hrun
    have hcpu₁ : k₁.cpuProc = k.cpuProc := by
      rcases pick_effect hpick with ⟨rfl, _⟩ | ⟨_, hsame, _⟩
      · rfl
      · exact hsame.cpuProc
    rw [hcpu₁, hcpu] at hx
    cases hx
  | some y =>
    obtain ⟨htidy, hsame, hflag, hnext, hflags⟩ := h.pick hfree hpick
    simp only at hrun
    split at hrun
    · cases hrun
    · cases hrun
      cases hx
      have h₁ : Tidy { k₁ with cpuProc := some x, schedP := some x } :=
        htidy.congr (fun i => ⟨rfl, rfl, htidy.level i⟩) rfl
      refine ⟨h₁.setProc (fun _ => ⟨rfl, rfl⟩) (h₁.level x), hsame.schedulerLocked.trans hfree, rfl,
        hflag, fun i => ?_, ?_, by simp⟩
      · rw [← hflags i]
        by_cases hiy : i = x
        · subst hiy; rw [setProc_proc_self]
        · rw [setProc_proc_of_ne _ _ _ _ hiy]
      · rw [setProc_proc_self]
        exact hnext

/-- What a call of `schedulerUnlock` by `p` does not touch. -/
structure CallFrame (k k' : Kernel) (p : Slot) : Prop where
  cpuProc : k'.cpuProc = k.cpuProc
  globalTick : k'.globalTick = k.globalTick
  state : ∀ i, (k'.proc i).state = (k.proc i).state
  chan : ∀ i, (k'.proc i).chan = (k.proc i).chan
  flag : ∀ i, i ≠ p → (k'.proc i).alreadyEnqueued = (k.proc i).alreadyEnqueued

namespace CallFrame

theorem refl (k : Kernel) (p : Slot) : CallFrame k k p :=
  ⟨rfl, rfl, fun _ => rfl, fun _ => rfl, fun _ _ => rfl⟩

theorem trans {k'' : Kernel} (h : CallFrame k k' p) (h' : CallFrame k' k'' p) :
    CallFrame k k'' p :=
  ⟨h'.cpuProc.trans h.cpuProc, h'.globalTick.trans h.globalTick,
    fun i => (h'.state i).trans (h.state i), fun i => (h'.chan i).trans (h.chan i),
    fun i hi => (h'.flag i hi).trans (h.flag i hi)⟩

/-- Assignments to the caller's own fields. -/
theorem setProc (k : Kernel) (p : Slot) {f : Proc → Proc}
    (hf : ∀ q, (f q).state = q.state ∧ (f q).chan = q.chan) : CallFrame k (k.setProc p f) p := by
  refine ⟨rfl, rfl, fun i => ?_, fun i => ?_, fun i hi => by rw [setProc_proc_of_ne _ _ _ _ hi]⟩
  · by_cases hip : i = p
    · subst hip; rw [setProc_proc_self]; exact (hf _).1
    · rw [setProc_proc_of_ne _ _ _ _ hip]
  · by_cases hip : i = p
    · subst hip; rw [setProc_proc_self]; exact (hf _).2
    · rw [setProc_proc_of_ne _ _ _ _ hip]

theorem clearLock (k : Kernel) (p : Slot) : CallFrame k (Mlfq.clearLock k p) p := by
  have h := CallFrame.setProc (f := fun q => { q with lockScheduler := false }) k p
    fun _ => ⟨rfl, rfl⟩
  exact ⟨rfl, rfl, h.state, h.chan, h.flag⟩

theorem of_links (h : SameButLinks k k')
    (hflag : ∀ i, i ≠ p → (k'.proc i).alreadyEnqueued = (k.proc i).alreadyEnqueued) :
    CallFrame k k' p :=
  ⟨h.cpuProc, h.globalTick, h.state_eq, fun i => by rw [h.proc i], hflag⟩

theorem sleepsOn (h : CallFrame k k' p) {chan : Option Chan} (i : Slot) :
    SleepsOn k' chan i ↔ SleepsOn k chan i := by
  rw [SleepsOn, SleepsOn, h.state, h.chan]

end CallFrame

/-- A running process has put itself at the head of `level_queue[0]`. -/
structure Headed (k k' : Kernel) (p : Slot) : Prop extends CallFrame k k' p where
  tidy : Tidy k'
  free : k'.schedulerLocked = k.schedulerLocked
  queued : (k'.proc p).alreadyEnqueued = true
  head : k'.levelQueue 0 = some p

/-- A process that is not queued is linked in front of `level_queue[0]`. -/
theorem insertHead (h : Tidy k) (hp : (k.proc p).alreadyEnqueued = false) {f : Proc → Proc}
    (hf : (f (k.proc p)).next = k.levelQueue 0 ∧ (f (k.proc p)).alreadyEnqueued = true ∧
      (f (k.proc p)).level ≤ 2) : Tidy ((k.setProc p f).setQueue 0 (some p)) := by
  obtain ⟨q, hQ, hnil⟩ := h.queues
  refine ⟨⟨_, hQ.insertHead hp hf.1 hf.2.1, fun l hl => ?_⟩, fun i => ?_⟩
  · rw [Function.update_of_ne (by omega), hnil l hl]
  · by_cases hip : i = p
    · subst hip
      rw [setQueue_proc, setProc_proc_self]
      exact hf.2.2
    · rw [setQueue_proc, setProc_proc_of_ne _ _ _ _ hip]
      exact h.level i

/-- `schedulerUnlock` puts a `RUNNING` process that is not queued at the head of
    `level_queue[0]`. -/
theorem pushHead (h : Tidy k) (hs : (k.proc p).state = .RUNNING)
    (hp : (k.proc p).alreadyEnqueued = false) : Headed k (Mlfq.pushHead k p) p := by
  let f : Proc → Proc := fun q =>
    { q with next := k.levelQueue 0, level := 0, timeAllotment := 0, timeQuantum := 4,
             alreadyEnqueued := true }
  have hpush : Mlfq.pushHead k p = (k.setProc p f).setQueue 0 (some p) := by
    rw [Mlfq.pushHead, if_pos (.inr hs)]
  have hframe : CallFrame k (k.setProc p f) p := .setProc k p fun _ => ⟨rfl, rfl⟩
  rw [hpush]
  refine ⟨⟨hframe.cpuProc, hframe.globalTick, hframe.state, hframe.chan, hframe.flag⟩,
    h.insertHead hp ⟨rfl, rfl, Nat.zero_le 2⟩, rfl, ?_, by simp⟩
  show ((k.setProc p f).proc p).alreadyEnqueued = true
  rw [setProc_proc_self]

/-- `dequeue_specific` takes a process out of the queue of its level. -/
theorem dequeueOwn (h : Tidy k) {l : Nat} (hp : LinkedIn k l p) :
    ∃ k', dequeueSpecific k l p = .ok k' ∧ Tidy k' ∧ SameButLinks k k' ∧ (k'.proc p).next = none ∧
      ∀ i, (k'.proc i).alreadyEnqueued = true ↔ (k.proc i).alreadyEnqueued = true ∧ i ≠ p := by
  obtain ⟨q, hQ, hnil⟩ := h.queues
  have hmem := hQ.linkedIn_iff.mp hp
  obtain ⟨k', hrun, hsame, hnext, -, hQ'⟩ := dequeueSpecific_spec hQ hmem
  obtain ⟨htidy, -, hflag⟩ := h.remove hQ hnil hsame hQ' hmem fun i => by
    rw [(hQ.chain l).nodup.mem_erase_iff, and_comm]
  exact ⟨k', hrun, htidy, hsame, hnext, hflag⟩

/-- The search of `schedulerUnlock` finds the holder of the lock in its queue. -/
theorem findHolder (h : Tidy k) (hlock : LockInv k) (hheld : (k.proc p).lockScheduler = true)
    (hq : Queued k p) : Mlfq.findHolder k [0, 1, 2] = .ok (some p) := by
  obtain ⟨q, hQ, hnil⟩ := h.queues
  have hwalk : ∀ l, walkFind k.next (fun i => (k.proc i).lockScheduler) NPROC (k.levelQueue l) =
      some ((q l).find? fun i => (k.proc i).lockScheduler) := fun l =>
    walkFind_eq (hQ.chain l) (hQ.length_le l)
  have hrun : ∀ ls, ∃ r, Mlfq.findHolder k ls = .ok r := fun ls => by
    induction ls with
    | nil => exact ⟨none, rfl⟩
    | cons l ls ih =>
      rw [Mlfq.findHolder, hwalk]
      cases hfind : (q l).find? fun i => (k.proc i).lockScheduler with
      | none => exact ih
      | some x => exact ⟨some x, rfl⟩
  obtain ⟨r, hr⟩ := hrun [0, 1, 2]
  cases r with
  | none =>
    obtain ⟨l, hl, hlink⟩ := hq
    have hnot := findHolder_none hr (l := l) (by simp; omega) hlink
    rw [hheld] at hnot
    cases hnot
  | some x =>
    have hx := hlock.holder x (findHolder_some hr).2
    have hp := hlock.holder p hheld
    rw [hr, Option.some.inj (hx.2.symm.trans hp.2)]

theorem clearLock (h : Tidy k) (p : Slot) : Tidy (Mlfq.clearLock k p) := by
  have h₀ : Tidy { k with schedulerLocked := false } := h.congr (fun i => ⟨rfl, rfl, h.level i⟩) rfl
  exact h₀.setProc (fun _ => ⟨rfl, rfl⟩) (h.level p)

/-- `schedulerUnlock` by a holder in the queue of its level. -/
theorem unlockFound (h : Tidy k) (hs : (k.proc p).state = .RUNNING)
    (hp : LinkedIn k (k.proc p).level p) :
    ∃ k', Mlfq.unlockFound k p = .ok k' ∧ CallFrame k k' p ∧ Tidy k' ∧
      k'.schedulerLocked = false ∧ (k'.proc p).alreadyEnqueued = true ∧
      k'.levelQueue 0 = some p := by
  have hc := h.clearLock p
  have hself : (Mlfq.clearLock k p).proc p = { k.proc p with lockScheduler := false } :=
    setProc_proc_self ..
  have hp' : LinkedIn (Mlfq.clearLock k p) ((Mlfq.clearLock k p).proc p).level p := by
    rw [hself]
    exact ((clearLock_linkedIn k p).2 _ _).mpr hp
  obtain ⟨k₁, hk₁, htidy, hsame, -, hflag⟩ := hc.dequeueOwn hp'
  have hs₁ : (k₁.proc p).state = .RUNNING := by
    rw [hsame.state_eq, hself]
    exact hs
  have hout : (k₁.proc p).alreadyEnqueued = false := by
    rw [Bool.eq_false_iff, ne_eq, hflag]
    exact fun hpp => hpp.2 rfl
  have hpush := htidy.pushHead hs₁ hout
  have hclear := CallFrame.clearLock k p
  refine ⟨Mlfq.pushHead k₁ p, ?_, (hclear.trans (.of_links hsame fun i hi => ?_)).trans
    hpush.toCallFrame, hpush.tidy, hpush.free.trans hsame.schedulerLocked, hpush.queued, hpush.head⟩
  · rw [Mlfq.unlockFound, dropNotRunnable, if_pos, hk₁, ok_bind]
    rw [hself, hs]
    simp
  · rw [Bool.eq_iff_iff, hflag]
    simp [hi]

end Tidy

end Xv6.Mlfq
