import Xv6.Mlfq.Lock

namespace Xv6.Mlfq

open Xv6.Lib

/-!
# MLFQ scheduler — the scheduling parameters

The level, the priority, the time quantum and the time allotment of a process are set in many
places, but always so that they fit together.  `Kernel.rank` reads them off a slot, and this module
says what the parts of every step do to it:

* `changeLevel_rank`, `unlockFound_rank`, `boostQueues_rank` — the three places that change the
  parameters of processes in use;
* `Tuned` — the parameters fit together, with a slack for a process that has just been charged;
* `params_consistent` — in every run the parameters of every process in use fit together.

The links of the queues may be broken in the run.  What is used of them is only that everything
that is linked was in use once (`Covers`).
-/

/-- The scheduling parameters of a process. -/
structure Rank where
  level : Nat
  priority : Int
  timeQuantum : Nat
  timeAllotment : Nat
  deriving DecidableEq, Repr

/-- The parameters of a slot. -/
def Proc.rank (q : Proc) : Rank where
  level := q.level
  priority := q.priority
  timeQuantum := q.timeQuantum
  timeAllotment := q.timeAllotment

/-- The parameters of the slots of the table. -/
def Kernel.rank (k : Kernel) (i : Slot) : Rank := (k.proc i).rank

/-- The parameters that `allocproc` and the boost set. -/
def newRank : Rank := ⟨0, 3, 4, 0⟩

/-- The parameters of a process that `schedulerUnlock` puts at the head of `level_queue[0]`. -/
def Rank.raised (r : Rank) : Rank := { r with level := 0, timeQuantum := 4, timeAllotment := 0 }

/-- The parameters after `changeLevel`. -/
def Rank.aged (r : Rank) : Rank :=
  if r.level < 2 ∧ r.timeAllotment ≥ r.timeQuantum then
    { r with level := r.level + 1, timeQuantum := 2 * (r.level + 1) + 4, timeAllotment := 0 }
  else if r.level = 2 ∧ r.timeAllotment ≥ r.timeQuantum then
    { r with priority := if r.priority - 1 ≥ 0 then r.priority - 1 else 0, timeAllotment := 0 }
  else r

/-- The parameters after a tick that is charged to the process. -/
def Rank.charged (r : Rank) : Rank := { r with timeAllotment := r.timeAllotment + 1 }

variable {k k' : Kernel} {p i : Slot}

/-! ### What changes the parameters -/

theorem rank_setProc (f : Proc → Proc) :
    (k.setProc p f).rank = Function.update k.rank p (f (k.proc p)).rank := by
  funext j
  by_cases hj : j = p
  · subst hj; simp [Kernel.rank]
  · simp [Kernel.rank, hj]

theorem rank_setProc_eq {f : Proc → Proc} (h : (f (k.proc p)).rank = (k.proc p).rank) :
    (k.setProc p f).rank = k.rank := by
  rw [rank_setProc, h]
  exact Function.update_eq_self _ _

@[simp] theorem rank_setQueue (l : Nat) (h : Option Slot) : (k.setQueue l h).rank = k.rank := rfl

theorem SameButLinks.rank (h : SameButLinks k k') : k'.rank = k.rank := by
  funext j
  rw [Kernel.rank, h.proc j]
  rfl

theorem makeRunnable_rank (h : makeRunnable k p = .ok k') : k'.rank = k.rank := by
  rw [makeRunnable] at h
  rw [(enqueue_sameButLinks h).rank]
  exact rank_setProc_eq rfl

theorem wakeOne_rank {chan : Option Chan} (h : wakeOne chan k p = .ok k') : k'.rank = k.rank := by
  rw [wakeOne] at h
  split at h
  · exact makeRunnable_rank h
  · cases h; rfl

theorem wakeup1_rank {chan : Option Chan} (h : wakeup1 k chan = .ok k') : k'.rank = k.rank :=
  foldlM_invariant (I := fun k₁ => k₁.rank = k.rank)
    (fun _ _ _ h₁ h₂ => (wakeOne_rank h₂).trans h₁) rfl h

theorem requeue_rank (h : requeue k p = .ok k') : k'.rank = k.rank := by
  rw [requeue] at h
  split at h
  · exact (enqueue_sameButLinks h).rank
  · cases h; rfl

theorem reparentOne_rank {c : Slot} (h : reparentOne p k c = .ok k') : k'.rank = k.rank := by
  rw [reparentOne] at h
  split at h
  · have hset : (k.setProc c fun q => { q with parent := k.initproc }).rank = k.rank :=
      rank_setProc_eq rfl
    simp only at h
    split at h
    · exact (wakeup1_rank h).trans hset
    · cases h; exact hset
  · cases h; rfl

/-- The process that comes back ages, and nobody else. -/
theorem changeLevel_rank (h : changeLevel k p = .ok k') :
    k'.rank = Function.update k.rank p (k.rank p).aged := by
  rw [changeLevel] at h
  split at h
  · rename_i hlow
    simp only [bind_eq_ok] at h
    obtain ⟨k₁, hk₁, h⟩ := h
    cases h
    have hleave : SameButLinks k k₁ := by
      rw [leaveLevel] at hk₁
      split at hk₁
      · exact dequeueSpecific_sameButLinks hk₁
      · cases hk₁; exact .refl k
    have hp : k₁.rank p = k.rank p := by rw [hleave.rank]
    rw [rank_setProc, hleave.rank]
    congr 1
    have hlow' : (k₁.rank p).level < 2 ∧ (k₁.rank p).timeAllotment ≥ (k₁.rank p).timeQuantum := by
      rw [hp]
      exact hlow
    rw [← hp, Rank.aged, if_pos hlow']
    rfl
  · rename_i hlow
    have hlow' : ¬ ((k.rank p).level < 2 ∧ (k.rank p).timeAllotment ≥ (k.rank p).timeQuantum) := hlow
    split at h
    · rename_i hhigh
      cases h
      rw [rank_setProc, Rank.aged, if_neg hlow']
      congr 1
      exact (if_pos hhigh).symm
    · rename_i hhigh
      cases h
      have haged : (k.rank p).aged = k.rank p := by
        rw [Rank.aged, if_neg hlow']
        exact if_neg hhigh
      rw [haged, Function.update_eq_self]

/-- The process that is found is raised if it can run. -/
theorem unlockFound_rank (h : unlockFound k p = .ok k') :
    k'.rank = Function.update k.rank p
      (if (k.proc p).state = .RUNNABLE ∨ (k.proc p).state = .RUNNING then (k.rank p).raised
        else k.rank p) := by
  rw [unlockFound] at h
  simp only [bind_eq_ok] at h
  obtain ⟨m, hm, h⟩ := h
  cases h
  have hclear : (clearLock k p).rank = k.rank := rank_setProc_eq rfl
  have hdrop := (dropNotRunnable_effect hm).1
  have hrank : m.rank = k.rank := hdrop.rank.trans hclear
  have hstate : (m.proc p).state = (k.proc p).state :=
    (hdrop.state_eq p).trans ((clearLock_effect k p).state p)
  rw [pushHead, hstate]
  split
  · rw [rank_setQueue, rank_setProc, hrank]
    congr 1
    rw [← hrank]
    rfl
  · rw [Function.update_eq_self, hrank]

/-- The moving loop of the boost gives every process that it meets new parameters. -/
theorem boostMove_rank {n : Nat} {cur cur' h : Option Slot}
    (hrun : boostMove n k cur h = .ok (k', cur')) (i : Slot) :
    k'.rank i = k.rank i ∨ k'.rank i = newRank := by
  induction n generalizing k cur h with
  | zero =>
    cases h with
    | none => cases hrun; exact .inl rfl
    | some x => cases hrun
  | succ n ih =>
    cases h with
    | none => cases hrun; exact .inl rfl
    | some x =>
      have hreset : ∀ j, (k.setProc x resetLevel).rank j = k.rank j ∨
          (k.setProc x resetLevel).rank j = newRank := fun j => by
        rw [rank_setProc]
        by_cases hj : j = x
        · subst hj
          rw [Function.update_self]
          exact .inr rfl
        · rw [Function.update_of_ne hj]
          exact .inl rfl
      obtain ⟨k₂, hrun₂, hk₂⟩ : ∃ k₂, boostMove n k₂ (some x) (k₂.proc x).next = .ok (k', cur') ∧
          k₂.rank = (k.setProc x resetLevel).rank := by
        cases cur with
        | none => exact ⟨_, hrun, rfl⟩
        | some c => exact ⟨_, hrun, rank_setProc_eq rfl⟩
      rcases ih hrun₂ with heq | heq
      · rw [heq, hk₂]
        exact hreset i
      · exact .inr heq

/-- The boost gives the processes of `level_queue[0]` a priority and an allotment, and the others
    that it meets new parameters. -/
theorem boostQueues_rank (hrun : boostQueues k = .ok k') (i : Slot) :
    k'.rank i = k.rank i ∨ k'.rank i = newRank ∨
      k'.rank i = { k.rank i with priority := 3, timeAllotment := 0 } := by
  rw [boostQueues] at hrun
  split at hrun
  · cases hrun
  · rename_i xs hxs
    simp only [bind_eq_ok, Prod.exists] at hrun
    obtain ⟨k₂, cur, hrun₂, k₃, cur₃, hrun₃, hk'⟩ := hrun
    cases hk'
    have hfirst : (boostFirst k xs).rank i = k.rank i ∨
        (boostFirst k xs).rank i = { k.rank i with priority := 3, timeAllotment := 0 } := by
      rw [boostFirst_spec, Kernel.rank]
      dsimp only
      split
      · exact .inr rfl
      · exact .inl rfl
    rcases boostMove_rank hrun₃ i with h₃ | h₃
    · have h₂ : k₂.rank i = (boostFirst k xs).rank i ∨ k₂.rank i = newRank := boostMove_rank hrun₂ i
      have heq : (k₃.setQueue 2 none).rank i = k₂.rank i := h₃
      rw [heq]
      rcases h₂ with h₂ | h₂
      · rw [h₂]
        rcases hfirst with hf | hf
        · exact .inl hf
        · exact .inr (.inr hf)
      · exact .inr (.inl h₂)
    · exact .inr (.inl h₃)

/-! ### Parameters that fit together -/

/-- The parameters fit together; the allotment may exceed the quantum by less than `n`. -/
structure Tuned (n : Nat) (r : Rank) : Prop where
  level : r.level ≤ 2
  lo : 0 ≤ r.priority
  hi : r.priority ≤ 3
  quantum : r.timeQuantum = 2 * r.level + 4
  allotment : r.timeAllotment < r.timeQuantum + n

/-- A change of the parameters that keeps them together and charges nothing. -/
structure Calms (r r' : Rank) : Prop where
  tuned : ∀ n, Tuned n r → Tuned n r'
  allotment : r'.timeAllotment ≤ r.timeAllotment

theorem Calms.refl (r : Rank) : Calms r r := ⟨fun _ h => h, le_refl _⟩

theorem Calms.of_eq {r r' : Rank} (h : r' = r) : Calms r r' := h ▸ .refl r

theorem Calms.trans {r r' r'' : Rank} (h : Calms r r') (h' : Calms r' r'') : Calms r r'' :=
  ⟨fun n hr => h'.tuned n (h.tuned n hr), h'.allotment.trans h.allotment⟩

theorem tuned_newRank (n : Nat) : Tuned n newRank :=
  ⟨by decide, by decide, by decide, rfl, by simp only [newRank]; omega⟩

theorem Calms.new (r : Rank) : Calms r newRank := ⟨fun n _ => tuned_newRank n, Nat.zero_le _⟩

theorem Calms.raised (r : Rank) : Calms r r.raised := by
  refine ⟨fun n h => ⟨Nat.zero_le _, h.lo, h.hi, rfl, ?_⟩, Nat.zero_le _⟩
  simp only [Rank.raised]
  omega

/-- The boost of a process of `level_queue[0]`. -/
theorem Calms.first (r : Rank) : Calms r { r with priority := 3, timeAllotment := 0 } := by
  refine ⟨fun n h => ⟨h.level, by simp, by simp, h.quantum, ?_⟩, Nat.zero_le _⟩
  have := h.quantum
  simp only
  omega

/-- A process that has used up its quantum gets a new one. -/
theorem Tuned.aged {r : Rank} (h : Tuned 1 r) : Tuned 0 r.aged := by
  obtain ⟨hlevel, hlo, hhi, hq, ha⟩ := h
  rw [Rank.aged]
  split
  · exact ⟨by simp only; omega, hlo, hhi, rfl, by simp only; omega⟩
  · split
    · refine ⟨hlevel, ?_, ?_, hq, by simp only; omega⟩
      · simp only
        split <;> omega
      · simp only
        split <;> omega
    · exact ⟨hlevel, hlo, hhi, hq, by omega⟩

theorem Rank.aged_allotment (r : Rank) : r.aged.timeAllotment ≤ r.timeAllotment := by
  rw [Rank.aged]
  split_ifs <;> simp

theorem Tuned.charged {r : Rank} (h : Tuned 0 r) : Tuned 1 r.charged :=
  ⟨h.level, h.lo, h.hi, h.quantum, by have := h.allotment; simp only [Rank.charged]; omega⟩

/-- The invariant of the parameters.  `S` holds the slots that were in use once; the allotment of
    every slot is at most `cap`, and the process `x` may have used up its quantum. -/
structure Params (x : Option Slot) (S : Slot → Prop) (cap : Slot → Nat) (k : Kernel) : Prop where
  covers : Covers S k
  tuned : ∀ i, S i → Tuned (if x = some i then 1 else 0) (k.rank i)
  cap : ∀ i, (k.rank i).timeAllotment ≤ cap i
  used : ∀ i, (k.proc i).state ≠ .UNUSED → S i
  np : ∀ i c, k.np i = some c → S c
  cpu : ∀ p, k.cpuProc = some p → S p
  schedP : ∀ p, k.schedP = some p → S p

section Params

variable {x : Option Slot} {S : Slot → Prop} {cap : Slot → Nat}

/-- A step of the machine that takes nothing new into use. -/
theorem Params.congr (h : Params x S cap k) (hcov : Covers S k')
    (hrank : ∀ i, Calms (k.rank i) (k'.rank i))
    (hstate : ∀ i, (k'.proc i).state ≠ .UNUSED → (k.proc i).state ≠ .UNUSED ∨ S i)
    (hnp : ∀ i c, k'.np i = some c → k.np i = some c ∨ S c)
    (hcpu : ∀ p, k'.cpuProc = some p → k.cpuProc = some p ∨ S p)
    (hschedP : ∀ p, k'.schedP = some p → k.schedP = some p ∨ S p) : Params x S cap k' where
  covers := hcov
  tuned i hi := (hrank i).tuned _ (h.tuned i hi)
  cap i := (hrank i).allotment.trans (h.cap i)
  used i hi := (hstate i hi).elim (h.used i) id
  np i c hc := (hnp i c hc).elim (h.np i c) id
  cpu p hp := (hcpu p hp).elim (h.cpu p) id
  schedP p hp := (hschedP p hp).elim (h.schedP p) id

/-- A step that changes no globals and no states. -/
theorem Params.of_roles (h : Params x S cap k) (hcov : Covers S k')
    (hrank : ∀ i, Calms (k.rank i) (k'.rank i)) (hsame : SameRoles k k') : Params x S cap k' :=
  h.congr hcov hrank (fun i hi => .inl (by rwa [hsame.state i] at hi))
    (fun i c hc => .inl (by rwa [hsame.np] at hc)) (fun p hp => .inl (by rwa [hsame.cpuProc] at hp))
    fun p hp => .inl (by rwa [hsame.schedP] at hp)

/-- A new state of one process, with the same parameters and the same link. -/
theorem Params.setProc (h : Params x S cap k) {f : Proc → Proc} (hp : S p)
    (hrank : (f (k.proc p)).rank = (k.proc p).rank) (hnext : ∀ q, (f q).next = q.next) :
    Params x S cap (k.setProc p f) := by
  refine h.congr (h.covers.setProc_keep p hnext) (fun i => .of_eq ?_) (fun i hi => ?_)
    (fun _ _ hc => .inl hc) (fun _ hp => .inl hp) fun _ hp => .inl hp
  · rw [rank_setProc_eq hrank]
  · by_cases hip : i = p
    · exact .inr (hip ▸ hp)
    · rw [setProc_proc_of_ne _ _ _ _ hip] at hi
      exact .inl hi

theorem Params.enqueue (h : Params x S cap k) {l : Nat} (hp : S p)
    (hrun : Mlfq.enqueue k p l = .ok k') : Params x S cap k' := by
  have hsame := enqueue_sameButLinks hrun
  refine h.of_roles ?_ (fun i => .of_eq (by rw [hsame.rank])) (.of_links hsame)
  rcases enqueue_appends hrun with rfl | happ
  · exact h.covers
  · have hS : (fun y => S y ∨ y = p) = S := by
      funext y
      exact propext ⟨fun hy => hy.elim id fun heq => heq ▸ hp, .inl⟩
    have := happ.covers h.covers
    rwa [hS] at this

theorem Params.makeRunnable (h : Params x S cap k) (hp : S p)
    (hrun : Mlfq.makeRunnable k p = .ok k') : Params x S cap k' :=
  Params.enqueue (h.setProc (f := fun q => { q with state := .RUNNABLE }) hp rfl fun _ => rfl) hp hrun

theorem Params.wakeOne (h : Params x S cap k) {chan : Option Chan}
    (hrun : Mlfq.wakeOne chan k p = .ok k') : Params x S cap k' := by
  rw [Mlfq.wakeOne] at hrun
  split at hrun
  · rename_i hsleep
    exact h.makeRunnable (h.used p (by rw [hsleep.1]; simp)) hrun
  · cases hrun; exact h

theorem Params.wakeup1 (h : Params x S cap k) {chan : Option Chan}
    (hrun : Mlfq.wakeup1 k chan = .ok k') : Params x S cap k' :=
  foldlM_invariant (I := Params x S cap) (fun _ _ _ h₁ h₂ => h₁.wakeOne h₂) h hrun

theorem Params.kill (h : Params x S cap k) {pid : Int} (hrun : Mlfq.kill k pid = .ok k') :
    Params x S cap k' := by
  rw [Mlfq.kill] at hrun
  split at hrun
  · cases hrun; exact h
  · rename_i p _
    simp only at hrun
    have hkill : Params x S cap (k.setProc p fun q => { q with killed := true }) := by
      refine h.congr (h.covers.setProc_keep p fun _ => rfl) (fun i => .of_eq ?_) (fun i hi => .inl ?_)
        (fun _ _ hc => .inl hc) (fun _ hp => .inl hp) fun _ hp => .inl hp
      · exact congrFun (rank_setProc_eq rfl) i
      · by_cases hip : i = p
        · subst hip; rwa [setProc_proc_self] at hi
        · rwa [setProc_proc_of_ne _ _ _ _ hip] at hi
    split at hrun
    · rename_i hsleep
      exact hkill.makeRunnable (hkill.used p (by rw [hsleep]; simp)) hrun
    · cases hrun; exact hkill

theorem Params.setPriority (h : Params x S cap k) (pid priority : Int) :
    Params x S cap (Mlfq.setPriority k pid priority) := by
  rw [Mlfq.setPriority]
  split
  · exact h
  · rename_i hrange
    rw [not_or, not_lt, not_lt] at hrange
    split
    · exact h
    · rename_i p _
      refine h.of_roles (h.covers.setProc_keep p fun _ => rfl) (fun i => ?_) (.setProc k p fun _ => ⟨rfl, rfl⟩)
      rw [rank_setProc]
      by_cases hip : i = p
      · subst hip
        rw [Function.update_self]
        exact ⟨fun n ht => ⟨ht.level, hrange.1, hrange.2, ht.quantum, ht.allotment⟩, le_refl _⟩
      · rw [Function.update_of_ne hip]
        exact .refl _

/-- `allocproc` takes one slot into use. -/
theorem Params.allocproc (h : Params x S cap k) :
    ∃ S' : Slot → Prop, Params x S' cap (Mlfq.allocproc k).2 ∧ (∀ i, S i → S' i) ∧
      ∀ c, (Mlfq.allocproc k).1 = some c → S' c := by
  rw [Mlfq.allocproc]
  split
  · exact ⟨S, h, fun _ hi => hi, by simp⟩
  · rename_i c _
    refine ⟨fun i => S i ∨ i = c, ?_, fun _ => .inl, fun c' hc' => .inr (Option.some.inj hc').symm⟩
    have hrank : ∀ i, i ≠ c → ({ k with nextpid := k.nextpid + 1 }.setProc c fun q =>
        { q with state := .EMBRYO, pid := k.nextpid, level := 0, priority := 3, timeQuantum := 4,
                 timeAllotment := 0, next := none }).rank i = k.rank i := fun i hi => by
      rw [rank_setProc, Function.update_of_ne hi]
      rfl
    have hself : ({ k with nextpid := k.nextpid + 1 }.setProc c fun q =>
        { q with state := .EMBRYO, pid := k.nextpid, level := 0, priority := 3, timeQuantum := 4,
                 timeAllotment := 0, next := none }).rank c = newRank := by
      rw [rank_setProc, Function.update_self]
      rfl
    refine ⟨⟨fun l a ha => .inl (h.covers.head l a ha), fun a b ha hb => ?_⟩, fun i hi => ?_,
      fun i => ?_, fun i hi => ?_, fun i d hd => .inl (h.np i d hd), fun p hp => .inl (h.cpu p hp),
      fun p hp => .inl (h.schedP p hp)⟩
    · by_cases hac : a = c
      · subst hac
        rw [setProc_proc_self] at hb
        cases hb
      · rw [setProc_proc_of_ne _ _ _ _ hac] at hb
        exact .inl (h.covers.next a b (ha.resolve_right hac) hb)
    · by_cases hic : i = c
      · subst hic
        rw [hself]
        exact tuned_newRank _
      · rw [hrank i hic]
        exact h.tuned i (hi.resolve_right hic)
    · by_cases hic : i = c
      · subst hic
        rw [hself]
        exact Nat.zero_le _
      · rw [hrank i hic]
        exact h.cap i
    · by_cases hic : i = c
      · exact .inr hic
      · rw [setProc_proc_of_ne _ _ _ _ hic] at hi
        exact .inl (h.used i hi)

/-- `fork` up to `copyuvm`. -/
theorem Params.forkAlloc (h : Params x S cap k) (p : Slot) (ok : Bool) :
    ∃ S' : Slot → Prop, Params x S' cap (Mlfq.forkAlloc k p ok) := by
  obtain ⟨S', h', hsub, hc⟩ := h.allocproc
  rw [Mlfq.forkAlloc]
  split
  · rename_i k₁ heq
    rw [heq] at h'
    exact ⟨S', h'⟩
  · rename_i c k₁ heq
    rw [heq] at h' hc
    refine ⟨S', ?_⟩
    split
    · refine h'.congr (h'.covers.congr (fun _ => rfl) rfl) (fun i => .refl _) (fun _ hi => .inl hi)
        (fun i d hd => ?_) (fun _ hp => .inl hp) fun _ hp => .inl hp
      by_cases hip : i = p
      · subst hip
        simp only [Function.update_self, Option.some.injEq] at hd
        exact .inr (hd ▸ hc c rfl)
      · simp only [Function.update_of_ne hip] at hd
        exact .inl hd
    · exact h'.setProc (hc c rfl) rfl fun _ => rfl

theorem Params.forkFinish (h : Params x S cap k) {ok : Bool}
    (hrun : Mlfq.forkFinish k p ok = .ok k') : Params x S cap k' := by
  rw [Mlfq.forkFinish] at hrun
  split at hrun
  · cases hrun
  · rename_i c hc
    have hS := h.np p c hc
    have h' : Params x S cap { k with np := Function.update k.np p none } := by
      refine h.congr (h.covers.congr (fun _ => rfl) rfl) (fun i => .refl _) (fun _ hi => .inl hi)
        (fun i d hd => ?_) (fun _ hp => .inl hp) fun _ hp => .inl hp
      by_cases hip : i = p
      · subst hip; simp at hd
      · simp only [Function.update_of_ne hip] at hd
        exact .inl hd
    simp only at hrun
    split at hrun
    · refine Params.makeRunnable (Params.setProc h' (p := c) (f := fun q => { q with parent := some p })
        hS rfl fun _ => rfl) hS hrun
    · cases hrun
      exact h'.setProc hS rfl fun _ => rfl

/-! ### The second half of a scheduler round -/

/-- `schedulerUnlock` raises a process that is linked. -/
theorem Params.unlockHolder (h : Params x S cap k) (hrun : Mlfq.unlockHolder k = .ok k') :
    Params x S cap k' := by
  rcases unlockHolder_effect hrun with ⟨rfl, _⟩ | ⟨y, hy, hrun⟩
  · exact h
  · obtain ⟨⟨l, _, hlink⟩, _⟩ := findHolder_some hy
    obtain ⟨hu, hcov⟩ := unlockFound_effect hrun
    refine h.congr (hcov S h.covers (h.covers.of_linked hlink)) (fun i => ?_)
      (fun i hi => .inl (by rwa [hu.state i] at hi)) (fun i c hc => .inl (by rwa [hu.np] at hc))
      (fun p hp => .inl (by rwa [hu.cpuProc] at hp)) fun p hp => .inl (by rwa [hu.schedP] at hp)
    rw [unlockFound_rank hrun]
    by_cases hiy : i = y
    · subst hiy
      rw [Function.update_self]
      split
      · exact .raised _
      · exact .refl _
    · rw [Function.update_of_ne hiy]
      exact .refl _

theorem Params.giveUpLock (h : Params x S cap k) (hrun : Mlfq.giveUpLock k p = .ok k') :
    Params x S cap k' := by
  rw [Mlfq.giveUpLock] at hrun
  split at hrun
  · exact h.unlockHolder hrun
  · cases hrun; exact h

/-- The process that comes back is in order again. -/
theorem Params.changeLevel (h : Params (some p) S cap k) (hrun : Mlfq.changeLevel k p = .ok k') :
    Params none S cap k' := by
  have hsame := changeLevel_roles hrun
  have hrank := changeLevel_rank hrun
  have hcov : Covers S k' := by
    rw [Mlfq.changeLevel] at hrun
    split at hrun
    · simp only [bind_eq_ok] at hrun
      obtain ⟨k₁, hk₁, hrun⟩ := hrun
      cases hrun
      have hleave : Covers S k₁ := by
        rw [leaveLevel] at hk₁
        split at hk₁
        · exact dequeueSpecific_covers hk₁ h.covers
        · cases hk₁; exact h.covers
      exact hleave.setProc_keep p fun _ => rfl
    · split at hrun
      · cases hrun; exact h.covers.setProc_keep p fun _ => rfl
      · cases hrun; exact h.covers
  refine ⟨hcov, fun i hi => ?_, fun i => ?_, fun i hi => h.used i (by rwa [hsame.state i] at hi),
    fun i c hc => h.np i c (by rwa [hsame.np] at hc), fun q hq => h.cpu q (by rwa [hsame.cpuProc] at hq),
    fun q hq => h.schedP q (by rwa [hsame.schedP] at hq)⟩
  · rw [hrank]
    have ht := h.tuned i hi
    by_cases hip : i = p
    · subst hip
      rw [if_pos rfl] at ht
      rw [Function.update_self]
      exact ht.aged
    · rw [if_neg fun heq => hip (Option.some.inj heq).symm] at ht
      rw [Function.update_of_ne hip]
      exact ht
  · rw [hrank]
    by_cases hip : i = p
    · subst hip
      rw [Function.update_self]
      exact (Rank.aged_allotment _).trans (h.cap i)
    · rw [Function.update_of_ne hip]
      exact h.cap i

theorem Params.requeue (h : Params x S cap k) (hp : S p) (hrun : Mlfq.requeue k p = .ok k') :
    Params x S cap k' := by
  rw [Mlfq.requeue] at hrun
  split at hrun
  · exact h.enqueue hp hrun
  · cases hrun; exact h

theorem Params.forgetP (h : Params x S cap k) : Params x S cap (Mlfq.forgetP k) := by
  rw [Mlfq.forgetP]
  split
  · exact h
  · exact h.congr (h.covers.congr (fun _ => rfl) rfl) (fun i => .refl _) (fun _ hi => .inl hi)
      (fun _ _ hc => .inl hc) (fun _ hp => .inl hp) fun p hp => by simp at hp

theorem Params.boostIfDue (h : Params x S cap k) (hrun : Mlfq.boostIfDue k = .ok k') :
    Params x S cap k' := by
  rw [Mlfq.boostIfDue] at hrun
  split at hrun
  · rw [boost] at hrun
    simp only [bind_eq_ok] at hrun
    obtain ⟨k₁, hk₁, k₂, hk₂, hrun⟩ := hrun
    cases hrun
    obtain ⟨hsame, hcov, _⟩ := boostQueues_effect hk₁
    have h₁ : Params x S cap k₁ := by
      refine h.of_roles (hcov S h.covers) (fun i => ?_) hsame
      rcases boostQueues_rank hk₁ i with heq | heq | heq
      · exact .of_eq heq
      · rw [heq]; exact .new _
      · rw [heq]; exact .first _
    have h₂ : Params x S cap k₂ := by
      rw [unlockBoosted] at hk₂
      split at hk₂
      · exact h₁.unlockHolder hk₂
      · cases hk₂; exact h₁
    exact h₂.congr (h₂.covers.congr (fun _ => rfl) rfl) (fun i => .refl _) (fun _ hi => .inl hi)
      (fun _ _ hc => .inl hc) (fun _ hp => .inl hp) fun _ hp => .inl hp
  · cases hrun; exact h

theorem Params.schedReturn (h : Params (some p) S cap k) (hp : S p)
    (hrun : Mlfq.schedReturn k p = .ok k') : Params none S cap k' := by
  obtain ⟨k₁, k₂, k₃, hk₁, hk₂, hk₃, hrun⟩ := schedReturn_eq_ok.mp hrun
  have h₀ : Params (some p) S cap { k with cpuProc := none } :=
    h.congr (h.covers.congr (fun _ => rfl) rfl) (fun i => .refl _) (fun _ hi => .inl hi)
      (fun _ _ hc => .inl hc) (fun q hq => by simp at hq) fun _ hq => .inl hq
  exact (((h₀.giveUpLock hk₁).changeLevel hk₂).requeue hp hk₃).forgetP.boostIfDue hrun

/-- A process whose quantum is not used up. -/
theorem Params.open (h : Params none S cap k) (p : Slot) : Params (some p) S cap k := by
  refine ⟨h.covers, fun i hi => ?_, h.cap, h.used, h.np, h.cpu, h.schedP⟩
  obtain ⟨hlevel, hlo, hhi, hq, ha⟩ := h.tuned i hi
  rw [if_neg (by simp)] at ha
  exact ⟨hlevel, hlo, hhi, hq, by omega⟩

/-- The running process gives up the CPU in a new state. -/
theorem Params.giveUp (h : Params (some p) S cap k) {f : Proc → Proc} (hp : S p)
    (hrank : (f (k.proc p)).rank = (k.proc p).rank) (hnext : ∀ q, (f q).next = q.next)
    (hrun : Mlfq.schedReturn (k.setProc p f) p = .ok k') : Params none S cap k' :=
  (h.setProc hp hrank hnext).schedReturn hp hrun

/-! ### Steps -/

theorem Params.reparentOne (h : Params x S cap k) {c : Slot}
    (hrun : Mlfq.reparentOne p k c = .ok k') : Params x S cap k' := by
  rw [Mlfq.reparentOne] at hrun
  split at hrun
  · have hset : Params x S cap (k.setProc c fun q => { q with parent := k.initproc }) := by
      refine h.of_roles (h.covers.setProc_keep c fun _ => rfl) (fun i => .of_eq ?_)
        (.setProc k c fun _ => ⟨rfl, rfl⟩)
      exact congrFun (rank_setProc_eq rfl) i
    simp only at hrun
    split at hrun
    · exact hset.wakeup1 hrun
    · cases hrun; exact hset
  · cases hrun; exact h

theorem Params.exit (h : Params none S cap k) (hp : S p) (hrun : Mlfq.exit k p = .ok k') :
    Params none S cap k' := by
  rw [Mlfq.exit] at hrun
  split at hrun
  · cases hrun
  · simp only [bind_eq_ok] at hrun
    obtain ⟨k₁, hk₁, k₂, hk₂, hrun⟩ := hrun
    have h₂ : Params none S cap k₂ :=
      foldlM_invariant (I := Params none S cap) (fun _ _ _ h hc => h.reparentOne hc) (h.wakeup1 hk₁) hk₂
    exact Params.giveUp (f := fun q => { q with state := .ZOMBIE }) (h₂.open p) hp rfl (fun _ => rfl) hrun

theorem Params.wait (h : Params none S cap k) (hp : S p) (hrun : Mlfq.wait k p = .ok k') :
    Params none S cap k' := by
  rw [Mlfq.wait] at hrun
  split at hrun
  · rename_i c hc
    have hz := List.find?_some hc
    simp only [decide_eq_true_eq] at hz
    cases hrun
    exact h.setProc (h.used c (by rw [hz.2]; simp)) rfl fun _ => rfl
  · split at hrun
    · cases hrun; exact h
    · exact Params.giveUp (f := fun q => { q with chan := some (.proc p), state := .SLEEPING })
        (h.open p) hp rfl (fun _ => rfl) hrun

theorem Params.schedule (h : Params none S cap k) (hrun : Mlfq.schedule k = .ok k') :
    Params none S cap k' := by
  rw [Mlfq.schedule] at hrun
  split at hrun
  · cases hrun
  simp only [bind_eq_ok, Prod.exists] at hrun
  obtain ⟨r, k₁, hpick, hrun⟩ := hrun
  obtain ⟨h₁, hr⟩ : Params none S cap k₁ ∧ ∀ p, r = some p → S p := by
    rcases pick_effect hpick with ⟨rfl, hr, _⟩ | ⟨_, hsame, hcov⟩
    · exact ⟨h, fun p hp => h.schedP p (hr ▸ hp)⟩
    · obtain ⟨hcov', hmem⟩ := hcov S h.covers
      exact ⟨h.of_roles hcov' (fun i => .of_eq (by rw [hsame.rank])) (.of_links hsame), hmem⟩
  cases r with
  | none =>
    cases hrun
    exact h₁.congr (h₁.covers.congr (fun _ => rfl) rfl) (fun i => .refl _) (fun _ hi => .inl hi)
      (fun _ _ hc => .inl hc) (fun _ hp => .inl hp) fun _ hp => by simp at hp
  | some p =>
    simp only at hrun
    split at hrun
    · cases hrun
    · cases hrun
      have h₂ : Params none S cap { k₁ with cpuProc := some p, schedP := some p } :=
        h₁.congr (h₁.covers.congr (fun _ => rfl) rfl) (fun i => .refl _) (fun _ hi => .inl hi)
          (fun _ _ hc => .inl hc) (fun q hq => .inr (hr q (by simpa using hq)))
          fun q hq => .inr (hr q (by simpa using hq))
      exact h₂.setProc (hr p rfl) rfl fun _ => rfl

/-- A tick is charged to the running process. -/
theorem Params.charge (h : Params none S cap k) (hp : S p) :
    Params (some p) S (Function.update cap p (cap p + 1))
      (k.setProc p fun q => { q with timeAllotment := q.timeAllotment + 1 }) := by
  have hrank := rank_setProc (k := k) (p := p)
    (fun q => { q with timeAllotment := q.timeAllotment + 1 })
  refine ⟨h.covers.setProc_keep p fun _ => rfl, fun i hi => ?_, fun i => ?_, fun i hi => ?_, h.np,
    h.cpu, h.schedP⟩
  · rw [hrank]
    have ht := h.tuned i hi
    rw [if_neg (by simp)] at ht
    by_cases hip : i = p
    · subst hip
      rw [if_pos rfl, Function.update_self]
      exact ht.charged
    · rw [if_neg fun heq => hip (Option.some.inj heq).symm, Function.update_of_ne hip]
      exact ht
  · rw [hrank]
    by_cases hip : i = p
    · subst hip
      rw [Function.update_self, Function.update_self]
      exact Nat.add_le_add_right (h.cap i) 1
    · rw [Function.update_of_ne hip, Function.update_of_ne hip]
      exact h.cap i
  · by_cases hip : i = p
    · subst hip; exact hp
    · rw [setProc_proc_of_ne _ _ _ _ hip] at hi
      exact h.used i hi

/-- A process that has been charged less than its quantum. -/
theorem Params.close (h : Params (some p) S cap k) (hcap : cap p ≤ 3) : Params none S cap k := by
  refine ⟨h.covers, fun i hi => ?_, h.cap, h.used, h.np, h.cpu, h.schedP⟩
  rw [if_neg (by simp)]
  obtain ⟨hlevel, hlo, hhi, hq, ha⟩ := h.tuned i hi
  refine ⟨hlevel, hlo, hhi, hq, ?_⟩
  by_cases hip : i = p
  · subst hip
    have := h.cap i
    omega
  · rwa [if_neg fun heq => hip (Option.some.inj heq).symm] at ha

end Params

/-! ### Runs -/

/-- The machine, and the processes that have entered the kernel since they were created. -/
structure UserRun where
  kernel : Kernel
  trapped : Slot → Bool

/-- A process that was killed does not return to user mode: `trap` checks `killed` on the way back.
    Only a new process starts in user mode without a check. -/
def neverInUser (s : UserRun) : Step → Bool
  | .tick true =>
    match s.kernel.cpuProc with
    | none => false
    | some p => (s.kernel.proc p).killed && s.trapped p
  | _ => false

/-- The slot that the step takes for a new process. -/
def newSlot (k : Kernel) : Step → Option Slot
  | .forkAlloc _ => if k.cpuProc.isSome then (allocproc k).1 else none
  | _ => none

/-- The step is a timer interrupt. -/
def Step.isTick : Step → Bool
  | .tick _ => true
  | _ => false

/-- The running process has entered the kernel with a step to `k'` that is an interrupt, or with
    which it has given up the CPU. -/
def noteTrap (s : UserRun) (e : Step) (k' : Kernel) (i : Slot) : Bool :=
  if newSlot s.kernel e = some i then false
  else if s.kernel.cpuProc = some i ∧ (e.isTick = true ∨ k'.cpuProc ≠ some i) then true
  else s.trapped i

/-- One step of the machine. -/
def userStep (s : UserRun) (e : Step) : Except Stop UserRun :=
  if neverInUser s e then .error .blocked
  else do
    let k' ← step s.kernel e
    .ok ⟨k', noteTrap s e k'⟩

/-- The machine when the scheduler starts. -/
def UserInit (s : UserRun) : Prop := Init s.kernel ∧ s.trapped = fun _ => false

/-- The parameters fit together, and a process that has not entered the kernel was not charged. -/
def ParamsInv (s : UserRun) : Prop :=
  ∃ S cap, Params none S cap s.kernel ∧ ∀ i, s.trapped i = false → cap i = 0

/-- The slot that `fork` takes gets new parameters. -/
theorem forkAlloc_rank {ok : Bool} {c : Slot} (hc : (allocproc k).1 = some c) :
    (forkAlloc k p ok).rank c = newRank := by
  have hk : (allocproc k).2.rank c = newRank := by
    rw [allocproc] at hc ⊢
    split at hc
    · cases hc
    · cases hc
      rw [rank_setProc, Function.update_self]
      rfl
  rw [forkAlloc]
  split
  · rename_i k₁ heq
    rw [heq] at hc
    cases hc
  · rename_i c' k₁ heq
    rw [heq] at hc hk
    cases hc
    split
    · exact hk
    · rw [rank_setProc_eq rfl]
      exact hk

/-- The steps that charge nothing. -/
theorem Params.step {S : Slot → Prop} {cap : Slot → Nat} (h : Params none S cap k) {e : Step}
    (he : e.isTick = false) (hrun : Mlfq.step k e = .ok k') :
    ∃ S' : Slot → Prop, Params none S' cap k' := by
  have hby : ∀ {f : Slot → Except Stop Kernel}, byProc k f = .ok k' →
      (∀ p, S p → f p = .ok k' → ∃ S' : Slot → Prop, Params none S' cap k') →
      ∃ S' : Slot → Prop, Params none S' cap k' := by
    intro f hf hp
    rw [byProc] at hf
    split at hf
    · cases hf
    · rename_i p hcpu
      exact hp p (h.cpu p hcpu) hf
  cases e with
  | forkAlloc ok =>
    refine hby hrun fun p _ hp => ?_
    cases hp
    exact h.forkAlloc p ok
  | forkFinish ok => exact hby hrun fun p _ hp => ⟨S, h.forkFinish hp⟩
  | exit => exact hby hrun fun p hS hp => ⟨S, h.exit hS hp⟩
  | wait => exact hby hrun fun p hS hp => ⟨S, h.wait hS hp⟩
  | sleep chan =>
    exact hby hrun fun p hS hp => ⟨S, Params.giveUp
      (f := fun q => { q with chan := some chan, state := .SLEEPING }) (h.open p) hS rfl (fun _ => rfl) hp⟩
  | wakeup chan => exact ⟨S, h.wakeup1 hrun⟩
  | kill pid => exact hby hrun fun p _ hp => ⟨S, h.kill hp⟩
  | yield =>
    exact hby hrun fun p hS hp => ⟨S, Params.giveUp
      (f := fun q => { q with state := .RUNNABLE }) (h.open p) hS rfl (fun _ => rfl) hp⟩
  | setPriority pid pr =>
    refine hby hrun fun p _ hp => ?_
    cases hp
    exact ⟨S, h.setPriority pid pr⟩
  | schedulerLock pw =>
    refine hby hrun fun p hS hp => ⟨S, ?_⟩
    rw [schedulerLock] at hp
    split at hp
    · cases hp; exact h
    · split at hp
      · cases hp
        have h' : Params none S cap { k with globalTick := 0, schedulerLocked := true } :=
          h.congr (h.covers.congr (fun _ => rfl) rfl) (fun i => .refl _) (fun _ hi => .inl hi)
            (fun _ _ hc => .inl hc) (fun _ hq => .inl hq) fun _ hq => .inl hq
        exact h'.setProc hS rfl fun _ => rfl
      · exact h.exit hS hp
  | schedulerUnlock pw =>
    refine hby hrun fun p hS hp => ⟨S, ?_⟩
    rw [schedulerUnlock] at hp
    split at hp
    · cases hp; exact h
    · split at hp
      · exact h.unlockHolder hp
      · exact h.exit hS hp
  | tick user => cases he
  | schedule => exact ⟨S, h.schedule hrun⟩

/-- Waking processes up does not kill them. -/
theorem wakeup1_killed {chan : Option Chan} (h : wakeup1 k chan = .ok k') (i : Slot) :
    (k'.proc i).killed = (k.proc i).killed := by
  refine foldlM_invariant (I := fun k₁ => (k₁.proc i).killed = (k.proc i).killed)
    (fun k₁ p k₂ h₁ h₂ => ?_) rfl h
  rw [← h₁]
  rw [wakeOne] at h₂
  split at h₂
  · rw [makeRunnable] at h₂
    rw [(enqueue_sameButLinks h₂).proc i]
    by_cases hip : i = p
    · subst hip; simp
    · simp [hip]
  · cases h₂; rfl

/-- A timer interrupt charges one tick to the running process, and the process gives up the CPU,
    unless it was killed and not charged before. -/
theorem Params.tick {S : Slot → Prop} {cap : Slot → Nat} (h : Params none S cap k) {user : Bool}
    (hnew : ∀ p, k.cpuProc = some p → (k.proc p).killed = true → user = true → cap p = 0)
    (hrun : Mlfq.tick k user = .ok k') :
    ∃ cap', Params none S cap' k' ∧ ∀ i, k.cpuProc ≠ some i → cap' i = cap i := by
  rw [Mlfq.tick] at hrun
  simp only [bind_eq_ok] at hrun
  obtain ⟨k₁, hk₁, hrun⟩ := hrun
  have h₀ : Params none S cap { k with globalTick := k.globalTick + 1 } :=
    h.congr (h.covers.congr (fun _ => rfl) rfl) (fun i => .refl _) (fun _ hi => .inl hi)
      (fun _ _ hc => .inl hc) (fun _ hq => .inl hq) fun _ hq => .inl hq
  have h₁ := h₀.wakeup1 hk₁
  have hcpu₁ : k₁.cpuProc = k.cpuProc := (SameLock.wakeup1 hk₁).cpuProc
  split at hrun
  · cases hrun; exact ⟨cap, h₁, fun _ _ => rfl⟩
  · rename_i p hcpu
    have hS := h₁.cpu p hcpu
    have hp : k.cpuProc = some p := hcpu₁.symm.trans hcpu
    split at hrun
    · refine ⟨Function.update cap p (cap p + 1), ?_, fun i hi => ?_⟩
      · have hcharge := h₁.charge hS
        split at hrun
        · rename_i hkilled
          cases hrun
          refine hcharge.close ?_
          rw [setProc_proc_self] at hkilled
          rw [Function.update_self, hnew p hp ?_ hkilled.2]
          · omega
          · rw [← wakeup1_killed hk₁ p]
            exact hkilled.1
        · exact Params.giveUp (f := fun q => { q with state := .RUNNABLE }) hcharge hS rfl
            (fun _ => rfl) hrun
      · have hip : i ≠ p := fun hip => hi (by rw [hip]; exact hp)
        rw [Function.update_of_ne hip]
    · cases hrun; exact ⟨cap, h₁, fun _ _ => rfl⟩

/-- Every step of a run keeps the parameters together. -/
theorem ParamsInv.step {s t : UserRun} {e : Step} (h : ParamsInv s) (hrun : userStep s e = .ok t) :
    ParamsInv t := by
  obtain ⟨S, cap, hp, hcap⟩ := h
  rw [userStep] at hrun
  split at hrun
  · cases hrun
  rename_i huser
  obtain ⟨k', hk', hrun⟩ := bind_eq_ok.mp hrun
  cases hrun
  by_cases htick : e.isTick = true
  · obtain ⟨user, rfl⟩ : ∃ user, e = .tick user := by
      cases e with
      | tick user => exact ⟨user, rfl⟩
      | _ => cases htick
    -- a killed process in user mode has not entered the kernel
    have hnew : ∀ p, s.kernel.cpuProc = some p → (s.kernel.proc p).killed = true → user = true →
        cap p = 0 := fun p hcpu hkilled hu => by
      subst hu
      refine hcap p ?_
      rw [Bool.not_eq_true] at huser
      simpa [neverInUser, hcpu, hkilled] using huser
    obtain ⟨cap', h', hsame⟩ := Params.tick hp hnew hk'
    refine ⟨S, cap', h', fun i hi => ?_⟩
    simp only [noteTrap, newSlot, reduceCtorEq, if_false, htick, true_or, and_true] at hi
    split at hi
    · cases hi
    · rename_i hcpu
      rw [hsame i hcpu]
      exact hcap i hi
  · rw [Bool.not_eq_true] at htick
    obtain ⟨S', h'⟩ := Params.step hp htick hk'
    cases hnew : newSlot s.kernel e with
    | none =>
      refine ⟨S', cap, h', fun i hi => ?_⟩
      simp only [noteTrap, hnew, reduceCtorEq, if_false] at hi
      split at hi
      · cases hi
      · exact hcap i hi
    | some c =>
      have hrank : k'.rank c = newRank := by
        cases e with
        | forkAlloc ok =>
          rw [newSlot] at hnew
          split at hnew
          · rw [Mlfq.step, byProc] at hk'
            split at hk'
            · cases hk'
            · cases hk'; exact forkAlloc_rank hnew
          · cases hnew
        | _ => cases hnew
      refine ⟨S', Function.update cap c 0, ⟨h'.covers, h'.tuned, fun i => ?_, h'.used, h'.np, h'.cpu,
        h'.schedP⟩, fun i hi => ?_⟩
      · by_cases hic : i = c
        · subst hic
          rw [hrank, Function.update_self]
          exact Nat.zero_le _
        · rw [Function.update_of_ne hic]
          exact h'.cap i
      · by_cases hic : i = c
        · subst hic; rw [Function.update_self]
        · rw [Function.update_of_ne hic]
          simp only [noteTrap, hnew, Option.some.injEq, Ne.symm hic, if_false] at hi
          split at hi
          · cases hi
          · exact hcap i hi

/-- At the start only the first process is in use. -/
theorem ParamsInv.init {s : UserRun} (h : UserInit s) : ParamsInv s := by
  have hboot : Params none (fun _ => False) (fun _ => 0) boot :=
    ⟨⟨by simp [boot], fun _ _ ha => ha.elim⟩, fun _ hi => hi.elim, fun _ => by simp [Kernel.rank, Proc.rank, boot],
      by simp [boot], by simp [boot], by simp [boot], by simp [boot]⟩
  obtain ⟨S, halloc, _, hS⟩ := hboot.allocproc
  have hinit := h.1
  rw [Init, userinit] at hinit
  split at hinit
  · cases hinit
  · rename_i p k₁ heq
    rw [heq] at halloc hS
    have h₁ : Params none S (fun _ => 0) { k₁ with initproc := some p } :=
      halloc.congr (halloc.covers.congr (fun _ => rfl) rfl) (fun i => .refl _) (fun _ hi => .inl hi)
        (fun _ _ hc => .inl hc) (fun _ hq => .inl hq) fun _ hq => .inl hq
    exact ⟨S, fun _ => 0, h₁.makeRunnable (hS p rfl) hinit, fun _ _ => rfl⟩

/-- **The scheduling parameters stay consistent.**  In every state of every run every process in
    use has a level and a priority in range, the quantum of its level, and an allotment below it,
    also while it runs. -/
theorem params_consistent {s : UserRun} (h : Reachable UserInit (Steps userStep fun _ _ => True) s)
    (i : Slot) (hi : (s.kernel.proc i).state ≠ .UNUSED) :
    (s.kernel.proc i).level ≤ 2 ∧ 0 ≤ (s.kernel.proc i).priority ∧ (s.kernel.proc i).priority ≤ 3 ∧
    (s.kernel.proc i).timeQuantum = 2 * (s.kernel.proc i).level + 4 ∧
    ((s.kernel.proc i).state ≠ .RUNNING →
      (s.kernel.proc i).timeAllotment < (s.kernel.proc i).timeQuantum) ∧
    ((s.kernel.proc i).state = .RUNNING →
      (s.kernel.proc i).timeAllotment ≤ (s.kernel.proc i).timeQuantum) := by
  have hinv : ParamsInv s := by
    refine h.invariant (fun _ => .init) ?_
    rintro s t hs ⟨e, _, hstep⟩
    exact hs.step hstep
  obtain ⟨S, cap, hp, _⟩ := hinv
  have ht := hp.tuned i (hp.used i hi)
  rw [if_neg (by simp)] at ht
  exact ⟨ht.level, ht.lo, ht.hi, ht.quantum, fun _ => ht.allotment, fun _ => ht.allotment.le⟩

/-- The first process is preempted four times. -/
theorem params_consistent_demoted : ∃ s : UserRun, (s.kernel.proc 0).level = 1 ∧
    (s.kernel.proc 0).timeQuantum = 2 * (s.kernel.proc 0).level + 4 ∧
    (s.kernel.proc 0).timeAllotment < (s.kernel.proc 0).timeQuantum := by
  obtain ⟨k₀, h₀⟩ : ∃ k, userinit boot = .ok k := ⟨_, rfl⟩
  obtain ⟨s, hs⟩ : ∃ s, exec userStep ⟨k₀, fun _ => false⟩ [.schedule, .tick true, .schedule,
      .tick true, .schedule, .tick false, .schedule, .tick true] = .ok s := by
    cases h₀; exact ⟨_, rfl⟩
  have hlevel : (s.kernel.proc 0).level = 1 := by cases h₀; cases hs; rfl
  have hstate : (s.kernel.proc 0).state = .RUNNABLE := by cases h₀; cases hs; rfl
  have hstart : Reachable UserInit (Steps userStep fun _ _ => True) ⟨k₀, fun _ => false⟩ :=
    .start ⟨h₀, rfl⟩
  obtain ⟨_, _, _, hq, ha, _⟩ := params_consistent
    (reachable_exec hstart (fun _ _ _ => trivial) hs) 0 (by rw [hstate]; simp)
  exact ⟨s, hlevel, hq, ha (by rw [hstate]; simp)⟩

end Xv6.Mlfq
