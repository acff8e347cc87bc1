import Xv6.Mlfq.Links

namespace Xv6.Mlfq

open Xv6.Lib

/-!
# MLFQ scheduler — who holds the scheduler lock

In every state of every run the scheduler lock has at most one holder, and the holder is the
process in the local variable `p` of `scheduler()`: the running process, or the process that
ran last while the lock was kept.

* `LockInv` — the invariant;
* `LockInv.step` — one step keeps it;
* `lockInv_of_reachable` — it holds in every run, whatever the links look like;
* `scheduler_lock_exclusive` — so the lock is exclusive, and under it only its holder runs.
-/

/-- Changing the level leaves all roles alone. -/
theorem changeLevel_roles {k k' : Kernel} {p : Slot} (h : changeLevel k p = .ok k') :
    SameRoles k k' := by
  rw [changeLevel] at h
  split at h
  · simp only [bind_eq_ok] at h
    obtain ⟨k₁, hk₁, h⟩ := h
    cases h
    have hleave : SameRoles k k₁ := by
      rw [leaveLevel] at hk₁
      split at hk₁
      · exact .of_links (dequeueSpecific_sameButLinks hk₁)
      · cases hk₁; exact .refl k
    exact hleave.trans (.setProc k₁ p fun _ => ⟨rfl, rfl⟩)
  · split at h
    · cases h; exact .setProc k p fun _ => ⟨rfl, rfl⟩
    · cases h; exact .refl k

/-- So does putting the process back into its queue. -/
theorem requeue_roles {k k' : Kernel} {p : Slot} (h : requeue k p = .ok k') : SameRoles k k' := by
  rw [requeue] at h
  split at h
  · exact .of_links (enqueue_sameButLinks h)
  · cases h; exact .refl k

/-- The lock is held by nobody, or by exactly the process `scheduler()` remembers. -/
structure LockInv (k : Kernel) : Prop where
  onCpu : ∀ p, k.cpuProc = some p → k.schedP = some p
  holder : ∀ x, (k.proc x).lockScheduler = true → k.schedulerLocked = true ∧ k.schedP = some x
  held : k.schedulerLocked = true → ∃ x, k.schedP = some x ∧ (k.proc x).lockScheduler = true

/-- `k` and `k'` agree on everything that concerns the lock. -/
structure SameLock (k k' : Kernel) : Prop where
  schedulerLocked : k'.schedulerLocked = k.schedulerLocked
  cpuProc : k'.cpuProc = k.cpuProc
  schedP : k'.schedP = k.schedP
  lockScheduler : ∀ i, (k'.proc i).lockScheduler = (k.proc i).lockScheduler

namespace SameLock

variable {k k' k'' : Kernel} {p : Slot}

theorem refl (k : Kernel) : SameLock k k := ⟨rfl, rfl, rfl, fun _ => rfl⟩

theorem trans (h : SameLock k k') (h' : SameLock k' k'') : SameLock k k'' :=
  ⟨h'.schedulerLocked.trans h.schedulerLocked, h'.cpuProc.trans h.cpuProc,
    h'.schedP.trans h.schedP, fun i => (h'.lockScheduler i).trans (h.lockScheduler i)⟩

theorem of_roles (h : SameRoles k k') : SameLock k k' :=
  ⟨h.schedulerLocked, h.cpuProc, h.schedP, h.lockScheduler⟩

theorem setProc (k : Kernel) (i : Slot) {f : Proc → Proc}
    (hf : ∀ q, (f q).lockScheduler = q.lockScheduler) : SameLock k (k.setProc i f) := by
  refine ⟨rfl, rfl, rfl, fun j => ?_⟩
  by_cases hji : j = i
  · subst hji; rw [setProc_proc_self, hf]
  · rw [setProc_proc_of_ne _ _ _ _ hji]

theorem makeRunnable (h : Mlfq.makeRunnable k p = .ok k') : SameLock k k' := by
  refine SameLock.trans ?_ (of_roles (.of_links (enqueue_sameButLinks h)))
  exact .setProc k p fun _ => rfl

theorem wakeOne {chan : Option Chan} (h : Mlfq.wakeOne chan k p = .ok k') : SameLock k k' := by
  rw [Mlfq.wakeOne] at h
  split at h
  · exact makeRunnable h
  · cases h; exact .refl k

theorem wakeup1 {chan : Option Chan} (h : Mlfq.wakeup1 k chan = .ok k') : SameLock k k' :=
  foldlM_invariant (I := SameLock k) (fun _ _ _ h₁ h₂ => h₁.trans (wakeOne h₂)) (.refl k) h

theorem kill {pid : Int} (h : Mlfq.kill k pid = .ok k') : SameLock k k' := by
  rw [Mlfq.kill] at h
  split at h
  · cases h; exact .refl k
  · rename_i p _
    have hk : SameLock k (k.setProc p fun q => { q with killed := true }) :=
      .setProc k p fun _ => rfl
    simp only at h
    split at h
    · exact hk.trans (makeRunnable h)
    · cases h; exact hk

theorem setPriority (k : Kernel) (pid priority : Int) :
    SameLock k (Mlfq.setPriority k pid priority) := by
  rw [Mlfq.setPriority]
  split
  · exact .refl k
  · split
    · exact .refl k
    · exact .setProc k _ fun _ => rfl

theorem allocproc (k : Kernel) : SameLock k (Mlfq.allocproc k).2 := by
  rw [Mlfq.allocproc]
  split
  · exact .refl k
  · rename_i p _
    have hk : SameLock k { k with nextpid := k.nextpid + 1 } := ⟨rfl, rfl, rfl, fun _ => rfl⟩
    dsimp only
    exact hk.trans (.setProc _ p fun _ => by rfl)

theorem forkAlloc (k : Kernel) (p : Slot) (ok : Bool) : SameLock k (Mlfq.forkAlloc k p ok) := by
  have hk := allocproc k
  rw [Mlfq.forkAlloc]
  split
  · rename_i k₁ heq
    rw [heq] at hk
    exact hk
  · rename_i c k₁ heq
    rw [heq] at hk
    split
    · exact hk.trans ⟨rfl, rfl, rfl, fun _ => rfl⟩
    · exact hk.trans (.setProc k₁ c fun _ => rfl)

theorem forkFinish {ok : Bool} (h : Mlfq.forkFinish k p ok = .ok k') : SameLock k k' := by
  rw [Mlfq.forkFinish] at h
  split at h
  · cases h
  · rename_i c _
    have hk : SameLock k { k with np := Function.update k.np p none } :=
      ⟨rfl, rfl, rfl, fun _ => rfl⟩
    simp only at h
    split at h
    · refine SameLock.trans ?_ (makeRunnable h)
      exact hk.trans (.setProc _ c fun _ => rfl)
    · cases h; exact hk.trans (.setProc _ c fun _ => rfl)

theorem reparentOne {c : Slot} (h : Mlfq.reparentOne p k c = .ok k') : SameLock k k' := by
  rw [Mlfq.reparentOne] at h
  split at h
  · have hk : SameLock k (k.setProc c fun q => { q with parent := k.initproc }) :=
      .setProc k c fun _ => rfl
    simp only at h
    split at h
    · exact hk.trans (wakeup1 h)
    · cases h; exact hk
  · cases h; exact .refl k

end SameLock

namespace LockInv

variable {k k' : Kernel} {p : Slot}

theorem congr (h : LockInv k) (hsame : SameLock k k') : LockInv k' := by
  refine ⟨fun q hq => ?_, fun x hx => ?_, fun hl => ?_⟩
  · rw [hsame.cpuProc] at hq
    rw [hsame.schedP]
    exact h.onCpu q hq
  · rw [hsame.lockScheduler] at hx
    rw [hsame.schedulerLocked, hsame.schedP]
    exact h.holder x hx
  · rw [hsame.schedulerLocked] at hl
    obtain ⟨x, hp, hx⟩ := h.held hl
    exact ⟨x, by rw [hsame.schedP, hp], by rw [hsame.lockScheduler, hx]⟩

/-- Only the process that `scheduler()` remembers can be found as the holder. -/
theorem found (h : LockInv k) {ls : List Nat} {x : Slot} (hx : findHolder k ls = .ok (some x)) :
    k.schedP = some x :=
  (h.holder x (findHolder_some hx).2).2

/-- Unlocking the holder leaves the lock to nobody. -/
theorem unlockFound (h : LockInv k) (hp : k.schedP = some p)
    (hrun : Mlfq.unlockFound k p = .ok k') : LockInv k' ∧ k'.schedulerLocked = false := by
  obtain ⟨hu, _⟩ := unlockFound_effect hrun
  refine ⟨⟨fun q hq => ?_, fun x hx => ?_, fun hl => ?_⟩, hu.schedulerLocked⟩
  · rw [hu.cpuProc] at hq
    rw [hu.schedP]
    exact h.onCpu q hq
  · exfalso
    by_cases hxp : x = p
    · subst hxp
      rw [hu.self] at hx
      cases hx
    · rw [hu.others x hxp] at hx
      have := (h.holder x hx).2
      rw [hp, Option.some.injEq] at this
      exact hxp this.symm
  · rw [hu.schedulerLocked] at hl
    cases hl

theorem unlockHolder (h : LockInv k) (hrun : Mlfq.unlockHolder k = .ok k') : LockInv k' := by
  rcases unlockHolder_effect hrun with ⟨rfl, _⟩ | ⟨p, hp, hrun⟩
  · exact h
  · exact (h.unlockFound (h.found hp) hrun).1

/-- The process that ran last has left the CPU. -/
theorem offCpu (h : LockInv k) : LockInv { k with cpuProc := none } :=
  ⟨fun p hp => by simp at hp, h.holder, h.held⟩

theorem forgetP (h : LockInv k) (hcpu : k.cpuProc = none) : LockInv (Mlfq.forgetP k) := by
  rw [Mlfq.forgetP]
  split
  · exact h
  · rename_i hl
    refine ⟨fun q hq => ?_, fun x hx => absurd (h.holder x hx).1 hl, fun hl' => absurd hl' hl⟩
    simp only at hq
    rw [hcpu] at hq
    cases hq

theorem boostIfDue (h : LockInv k) (hrun : Mlfq.boostIfDue k = .ok k') : LockInv k' := by
  rw [Mlfq.boostIfDue] at hrun
  split at hrun
  · rw [boost] at hrun
    simp only [bind_eq_ok] at hrun
    obtain ⟨k₁, hk₁, k₂, hk₂, hrun⟩ := hrun
    cases hrun
    have h₁ : LockInv k₁ := h.congr (.of_roles (boostQueues_effect hk₁).1)
    have h₂ : LockInv k₂ := by
      rw [unlockBoosted] at hk₂
      split at hk₂
      · exact h₁.unlockHolder hk₂
      · cases hk₂; exact h₁
    exact h₂.congr ⟨rfl, rfl, rfl, fun _ => rfl⟩
  · cases hrun; exact h

theorem giveUpLock (h : LockInv k) (hrun : Mlfq.giveUpLock k p = .ok k') : LockInv k' := by
  rw [Mlfq.giveUpLock] at hrun
  split at hrun
  · exact h.unlockHolder hrun
  · cases hrun; exact h

end LockInv

/-- `giveUpLock` leaves the CPU as it was. -/
theorem giveUpLock_cpuProc {k k' : Kernel} {p : Slot} (hrun : giveUpLock k p = .ok k') :
    k'.cpuProc = k.cpuProc := by
  rw [giveUpLock] at hrun
  split at hrun
  · rcases unlockHolder_effect hrun with ⟨rfl, _⟩ | ⟨x, _, hrun⟩
    · rfl
    · exact (unlockFound_effect hrun).1.cpuProc
  · cases hrun; rfl

/-- The four parts of the second half of a scheduler round. -/
theorem schedReturn_eq_ok {k k' : Kernel} {p : Slot} :
    schedReturn k p = .ok k' ↔ ∃ k₁ k₂ k₃, giveUpLock { k with cpuProc := none } p = .ok k₁ ∧
      changeLevel k₁ p = .ok k₂ ∧ requeue k₂ p = .ok k₃ ∧ boostIfDue (forgetP k₃) = .ok k' := by
  simp only [schedReturn, bind_eq_ok, exists_and_left]

namespace LockInv

variable {k k' : Kernel} {p : Slot}

theorem schedReturn (h : LockInv k) (hrun : Mlfq.schedReturn k p = .ok k') : LockInv k' := by
  obtain ⟨k₁, k₂, k₃, hk₁, hk₂, hk₃, hrun⟩ := schedReturn_eq_ok.mp hrun
  have h₂ := SameLock.of_roles (changeLevel_roles hk₂)
  have h₃ := SameLock.of_roles (requeue_roles hk₃)
  have hcpu : k₃.cpuProc = none :=
    (h₃.cpuProc.trans h₂.cpuProc).trans (giveUpLock_cpuProc hk₁)
  exact ((((h.offCpu.giveUpLock hk₁).congr h₂).congr h₃).forgetP hcpu).boostIfDue hrun

/-- The running process gives up the CPU in any new state. -/
theorem giveUp (h : LockInv k) {f : Proc → Proc} (hf : ∀ q, (f q).lockScheduler = q.lockScheduler)
    (hrun : Mlfq.schedReturn (k.setProc p f) p = .ok k') : LockInv k' :=
  (h.congr (.setProc k p hf)).schedReturn hrun

theorem exit (h : LockInv k) (hrun : Mlfq.exit k p = .ok k') : LockInv k' := by
  rw [Mlfq.exit] at hrun
  split at hrun
  · cases hrun
  · simp only [bind_eq_ok] at hrun
    obtain ⟨k₁, hk₁, k₂, hk₂, hrun⟩ := hrun
    have h₂ : SameLock k₁ k₂ := foldlM_invariant (I := SameLock k₁)
      (fun _ _ _ ha hb => ha.trans (.reparentOne hb)) (.refl k₁) hk₂
    exact ((h.congr (.wakeup1 hk₁)).congr h₂).giveUp (fun _ => by rfl) hrun

theorem wait (h : LockInv k) (hrun : Mlfq.wait k p = .ok k') : LockInv k' := by
  rw [Mlfq.wait] at hrun
  split at hrun
  · cases hrun; exact h.congr (.setProc k _ fun _ => rfl)
  · split at hrun
    · cases hrun; exact h
    · exact h.giveUp (fun _ => by rfl) hrun

theorem tick {user : Bool} (h : LockInv k) (hrun : Mlfq.tick k user = .ok k') : LockInv k' := by
  rw [Mlfq.tick] at hrun
  simp only [bind_eq_ok] at hrun
  obtain ⟨k₁, hk₁, hrun⟩ := hrun
  have h₀ : LockInv { k with globalTick := k.globalTick + 1 } := ⟨h.onCpu, h.holder, h.held⟩
  have h₁ : LockInv k₁ := h₀.congr (.wakeup1 hk₁)
  split at hrun
  · cases hrun; exact h₁
  · rename_i p _
    split at hrun
    · have h₂ : LockInv (k₁.setProc p fun q => { q with timeAllotment := q.timeAllotment + 1 }) :=
        h₁.congr (.setProc k₁ p fun _ => rfl)
      split at hrun
      · cases hrun; exact h₂
      · exact h₂.giveUp (fun _ => by rfl) hrun
    · cases hrun; exact h₁

/-- The scheduler keeps its old process under the lock, and picks one without it. -/
theorem schedule (h : LockInv k) (hrun : Mlfq.schedule k = .ok k') : LockInv k' := by
  rw [Mlfq.schedule] at hrun
  split at hrun
  · cases hrun
  · rename_i hcpu
    rw [Option.isSome_iff_ne_none, not_not] at hcpu
    simp only [bind_eq_ok, Prod.exists] at hrun
    obtain ⟨r, k₁, hpick, hrun⟩ := hrun
    obtain ⟨hsame, hkeep⟩ : SameButLinks k k₁ ∧ (k.schedulerLocked = true → r = k.schedP) := by
      rcases pick_effect hpick with ⟨rfl, hr, _⟩ | ⟨hfree, hsame, _⟩
      · exact ⟨.refl k₁, fun _ => hr⟩
      · refine ⟨hsame, fun hl => ?_⟩
        obtain ⟨x, hx, _⟩ := h.held hl
        exact absurd ⟨by simp [hx], hl⟩ hfree
    have hlock : SameLock k k₁ := .of_roles (.of_links hsame)
    have h₁ : LockInv k₁ := h.congr hlock
    have hcpu₁ : k₁.cpuProc = none := hlock.cpuProc.trans hcpu
    have hkeep₁ : ∀ x, (k₁.proc x).lockScheduler = true → r = some x := by
      intro x hx
      obtain ⟨hl, hx⟩ := h₁.holder x hx
      rw [hkeep (hlock.schedulerLocked ▸ hl), ← hlock.schedP, hx]
    have hheld : k₁.schedulerLocked = true → ∃ x, r = some x ∧ (k₁.proc x).lockScheduler = true := by
      intro hl
      obtain ⟨x, _, hx⟩ := h₁.held hl
      exact ⟨x, hkeep₁ x hx, hx⟩
    cases r with
    | none =>
      cases hrun
      refine ⟨fun q hq => ?_, fun x hx => ?_, fun hl => ?_⟩
      · simp only at hq
        rw [hcpu₁] at hq
        cases hq
      · cases hkeep₁ x hx
      · obtain ⟨x, hx, _⟩ := hheld hl
        cases hx
    | some p =>
      simp only at hrun
      split at hrun
      · cases hrun
      · cases hrun
        have h₂ : LockInv { k₁ with cpuProc := some p, schedP := some p } :=
          ⟨fun _ hq => hq, fun x hx => ⟨(h₁.holder x hx).1, hkeep₁ x hx⟩, hheld⟩
        exact h₂.congr (.setProc _ p fun _ => rfl)

theorem schedulerLock {pw : Int} (h : LockInv k) (hcpu : k.cpuProc = some p)
    (hrun : Mlfq.schedulerLock k p pw = .ok k') : LockInv k' := by
  rw [Mlfq.schedulerLock] at hrun
  split at hrun
  · cases hrun; exact h
  · rename_i hfree
    split at hrun
    · cases hrun
      refine ⟨h.onCpu, fun x hx => ⟨rfl, ?_⟩, fun _ => ⟨p, h.onCpu p hcpu, by simp⟩⟩
      by_cases hxp : x = p
      · subst hxp; exact h.onCpu x hcpu
      · rw [setProc_proc_of_ne _ _ _ _ hxp] at hx
        exact absurd (h.holder x hx).1 hfree
    · exact h.exit hrun

theorem schedulerUnlock {pw : Int} (h : LockInv k)
    (hrun : Mlfq.schedulerUnlock k p pw = .ok k') : LockInv k' := by
  rw [Mlfq.schedulerUnlock] at hrun
  split at hrun
  · cases hrun; exact h
  · split at hrun
    · exact h.unlockHolder hrun
    · exact h.exit hrun

/-- Every step keeps the lock invariant. -/
theorem step {e : Step} (h : LockInv k) (hrun : Mlfq.step k e = .ok k') : LockInv k' := by
  have hby : ∀ {f : Slot → Except Stop Kernel}, byProc k f = .ok k' →
      (∀ p, k.cpuProc = some p → f p = .ok k' → LockInv k') → LockInv k' := by
    intro f hf hp
    rw [byProc] at hf
    split at hf
    · cases hf
    · exact hp _ ‹_› hf
  cases e with
  | forkAlloc ok => exact hby hrun fun p _ hp => by cases hp; exact h.congr (.forkAlloc k p ok)
  | forkFinish ok => exact hby hrun fun p _ hp => h.congr (.forkFinish hp)
  | exit => exact hby hrun fun p _ hp => h.exit hp
  | wait => exact hby hrun fun p _ hp => h.wait hp
  | sleep chan => exact hby hrun fun p _ hp => h.giveUp (fun _ => by rfl) hp
  | wakeup chan => exact h.congr (.wakeup1 hrun)
  | kill pid => exact hby hrun fun p _ hp => h.congr (.kill hp)
  | yield => exact hby hrun fun p _ hp => h.giveUp (fun _ => by rfl) hp
  | setPriority pid pr => exact hby hrun fun p _ hp => by cases hp; exact h.congr (.setPriority k _ _)
  | schedulerLock pw => exact hby hrun fun p hcpu hp => h.schedulerLock hcpu hp
  | schedulerUnlock pw => exact hby hrun fun p _ hp => h.schedulerUnlock hp
  | tick user => exact h.tick hrun
  | schedule => exact h.schedule hrun

theorem of_init (h : Init k) : LockInv k := by
  have hboot : LockInv boot := ⟨by simp [boot], by simp [boot], by simp [boot]⟩
  have halloc := SameLock.allocproc boot
  rw [Init, userinit] at h
  split at h
  · cases h
  · rename_i p k₁ heq
    rw [heq] at halloc
    have h₁ : LockInv { k₁ with initproc := some p } :=
      (hboot.congr halloc).congr ⟨rfl, rfl, rfl, fun _ => rfl⟩
    exact h₁.congr (.makeRunnable h)

end LockInv

/-- In every run the scheduler lock has at most one holder, the process `scheduler()`
    remembers. -/
theorem lockInv_of_reachable {G : Kernel → Step → Prop} {k : Kernel}
    (h : Reachable Init (Steps step G) k) : LockInv k := by
  refine h.invariant (fun _ => LockInv.of_init) ?_
  rintro k k' hk ⟨e, _, hstep⟩
  exact hk.step hstep

/-- A round of the scheduler leaves the lock and its holder alone. -/
theorem schedule_lock {k k' : Kernel} (hrun : schedule k = .ok k') :
    k'.schedulerLocked = k.schedulerLocked ∧
      ∀ i, (k'.proc i).lockScheduler = (k.proc i).lockScheduler := by
  rw [schedule] at hrun
  split at hrun
  · cases hrun
  simp only [bind_eq_ok, Prod.exists] at hrun
  obtain ⟨r, k₁, hpick, hrun⟩ := hrun
  have hlock : SameLock k k₁ := by
    rcases pick_effect hpick with ⟨rfl, _⟩ | ⟨_, hsame, _⟩
    · exact .refl k₁
    · exact .of_roles (.of_links hsame)
  cases r with
  | none =>
    cases hrun
    exact ⟨hlock.schedulerLocked, hlock.lockScheduler⟩
  | some p =>
    simp only at hrun
    split at hrun
    · cases hrun
    · cases hrun
      refine ⟨hlock.schedulerLocked, fun i => ?_⟩
      have hset := SameLock.setProc { k₁ with cpuProc := some p, schedP := some p } p
        (f := fun q => { q with state := .RUNNING, chan := none }) fun _ => rfl
      exact (hset.lockScheduler i).trans (hlock.lockScheduler i)

/-- **The scheduler lock is exclusive.**  In every state of every run it is held if and only if
    exactly one process is marked as its holder, it is free if and only if none is, and a process
    that is dispatched while it is held is the holder. -/
theorem scheduler_lock_exclusive {k : Kernel} (h : Reachable Init (Steps step fun _ _ => True) k) :
    (k.schedulerLocked = true ↔ ∃! x, (k.proc x).lockScheduler = true) ∧
    (k.schedulerLocked = false ↔ ∀ x, (k.proc x).lockScheduler = false) ∧
    ∀ k' p, step k .schedule = .ok k' → k.schedulerLocked = true → k'.cpuProc = some p →
      (k.proc p).lockScheduler = true := by
  have hinv := lockInv_of_reachable h
  refine ⟨⟨fun hl => ?_, fun ⟨x, hx, _⟩ => (hinv.holder x hx).1⟩, ⟨fun hf x => ?_, fun hx => ?_⟩,
    fun k' p hrun hl hp => ?_⟩
  · obtain ⟨x, hp, hx⟩ := hinv.held hl
    refine ⟨x, hx, fun y hy => ?_⟩
    have := (hinv.holder y hy).2
    exact Option.some.inj (this.symm.trans hp)
  · rw [← Bool.not_eq_true]
    intro hx
    rw [(hinv.holder x hx).1] at hf
    cases hf
  · rw [← Bool.not_eq_true]
    intro hl
    obtain ⟨x, _, hheld⟩ := hinv.held hl
    rw [hx x] at hheld
    cases hheld
  · -- the holder is still the process that the scheduler remembers
    obtain ⟨hlocked, hsame⟩ := schedule_lock hrun
    have hinv' := hinv.step hrun
    obtain ⟨x, hx, hheld⟩ := hinv'.held (hlocked.trans hl)
    cases Option.some.inj ((hinv'.onCpu p hp).symm.trans hx)
    rwa [hsame] at hheld

/-- The first process takes the lock, is preempted and dispatched again. -/
theorem scheduler_lock_exclusive_preempted : ∃ k, k.schedulerLocked = true ∧
    (∃! x, (k.proc x).lockScheduler = true) ∧ ∃ k' p, step k .schedule = .ok k' ∧
      k'.cpuProc = some p ∧ (k.proc p).lockScheduler = true := by
  obtain ⟨k₀, h₀⟩ : ∃ k, userinit boot = .ok k := ⟨_, rfl⟩
  obtain ⟨k, hk⟩ : ∃ k, exec step k₀ [.schedule, .schedulerLock schedPassword, .tick true] = .ok k := by
    cases h₀; exact ⟨_, rfl⟩
  obtain ⟨k', hk'⟩ : ∃ k', step k .schedule = .ok k' := by
    cases h₀; cases hk; exact ⟨_, rfl⟩
  have hl : k.schedulerLocked = true := by cases h₀; cases hk; rfl
  have hp : k'.cpuProc = some 0 := by cases h₀; cases hk; cases hk'; rfl
  obtain ⟨hone, _, hdisp⟩ :=
    scheduler_lock_exclusive (reachable_exec (.start h₀) (fun _ _ _ => trivial) hk)
  exact ⟨k, hl, hone.mp hl, k', 0, hk', hp, hdisp k' 0 hk' hl hp⟩

end Xv6.Mlfq
