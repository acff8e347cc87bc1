import Xv6.Mlfq.Links

namespace Xv6.Mlfq

open Xv6.Lib Relation

/-!
# MLFQ scheduler — `schedulerUnlock`, assignment by assignment

The system call `schedulerUnlock` runs without `ptable.lock`, so a timer interrupt can come between
any two of its assignments.  A `Point` is a place in the call together with the local variables that
are still read behind it, and `unlockStep` executes the next assignment.

* `UnlockRun` — the rest of the call from a point on;
* `unlockRun_unlockHolder` — without an interrupt the steps make up `schedulerUnlock`.
-/

/-- Where a call `schedulerUnlock(2019041703)` is; `walk` is the loop of `dequeue_specific`. -/
inductive Point
  | search (level : Nat) (current : Option Slot)
  | found (p : Slot)
  | unlocked (p : Slot)
  | cleared (p : Slot)
  | walk (p : Slot) (level : Nat) (prev cur : Option Slot)
  | clearNext (p : Slot)
  | clearFlag (p : Slot)
  | push (p : Slot)
  | setHead (p : Slot)
  | setLevel (p : Slot)
  | setAllotment (p : Slot)
  | setQuantum (p : Slot)
  | setFlag (p : Slot)
  | done
  deriving DecidableEq, Repr

/-- The call starts with the search for the holder, unless the scheduler is not locked. -/
def unlockStart (k : Kernel) : Point :=
  if k.schedulerLocked = false then .done else .search 0 (k.levelQueue 0)

/-- `prev->next = p->next`, or `*queue = p->next` for the first process of the queue. -/
def unlinkBehind (k : Kernel) (p : Slot) (level : Nat) : Option Slot → Kernel
  | some y => k.setProc y fun q => { q with next := k.next p }
  | none => k.setQueue level (k.next p)

/-- The next assignment of the call. -/
def unlockStep (k : Kernel) : Point → Kernel × Point
  | .search level none =>
    if level + 1 < 3 then (k, .search (level + 1) (k.levelQueue (level + 1))) else (k, .done)
  | .search level (some x) =>
    if (k.proc x).lockScheduler then (k, .found x) else (k, .search level (k.next x))
  | .found p => ({ k with schedulerLocked := false }, .unlocked p)
  | .unlocked p => (k.setProc p fun q => { q with lockScheduler := false }, .cleared p)
  | .cleared p =>
    if (k.proc p).state ≠ .RUNNABLE ∧ (k.proc p).alreadyEnqueued = true then
      (k, .walk p (k.proc p).level none (k.levelQueue (k.proc p).level))
    else (k, .push p)
  | .walk p _ _ none => (k, .push p)
  | .walk p level prev (some x) =>
    if x = p then (unlinkBehind k p level prev, .clearNext p)
    else (k, .walk p level (some x) (k.next x))
  | .clearNext p => (k.setProc p fun q => { q with next := none }, .clearFlag p)
  | .clearFlag p => (k.setProc p fun q => { q with alreadyEnqueued := false }, .push p)
  | .push p =>
    if (k.proc p).state = .RUNNABLE ∨ (k.proc p).state = .RUNNING then
      (k.setProc p fun q => { q with next := k.levelQueue 0 }, .setHead p)
    else (k, .done)
  | .setHead p => (k.setQueue 0 (some p), .setLevel p)
  | .setLevel p => (k.setProc p fun q => { q with level := 0 }, .setAllotment p)
  | .setAllotment p => (k.setProc p fun q => { q with timeAllotment := 0 }, .setQuantum p)
  | .setQuantum p => (k.setProc p fun q => { q with timeQuantum := 2 * q.level + 4 }, .setFlag p)
  | .setFlag p => (k.setProc p fun q => { q with alreadyEnqueued := true }, .done)
  | .done => (k, .done)

/-- One assignment leads from `s` to `t`. -/
def UnlockStep (s t : Kernel × Point) : Prop := s.2 ≠ .done ∧ unlockStep s.1 s.2 = t

/-- The call goes on from the point to its end. -/
def UnlockRun (k : Kernel) (pt : Point) (k' : Kernel) : Prop :=
  ReflTransGen UnlockStep (k, pt) (k', .done)

variable {k k' k'' : Kernel} {pt : Point} {p : Slot}

theorem UnlockRun.done (k : Kernel) : UnlockRun k .done k := .refl

/-- The first assignment of the rest of a call. -/
theorem unlockRun_iff (hpt : pt ≠ .done) :
    UnlockRun k pt k' ↔ UnlockRun (unlockStep k pt).1 (unlockStep k pt).2 k' := by
  constructor
  · intro h
    rcases h.cases_head with heq | ⟨s, ⟨_, rfl⟩, hs⟩
    · cases heq
      exact absurd rfl hpt
    · exact hs
  · exact fun h => .head ⟨hpt, rfl⟩ h

@[simp] theorem unlockRun_done_iff : UnlockRun k .done k' ↔ k' = k := by
  constructor
  · intro h
    rcases h.cases_head with heq | ⟨s, ⟨hne, _⟩, _⟩
    · cases heq; rfl
    · exact absurd rfl hne
  · rintro rfl
    exact .refl

/-- The call after the given number of assignments. -/
def unlockAt (k : Kernel) (n : Nat) : Kernel × Point :=
  (fun s => unlockStep s.1 s.2)^[n] (k, unlockStart k)

theorem unlockAt_reached {n : Nat} (h : ∀ m < n, (unlockAt k m).2 ≠ .done) :
    ReflTransGen UnlockStep (k, unlockStart k) (unlockAt k n) := by
  induction n with
  | zero => exact .refl
  | succ n ih =>
    refine (ih fun m hm => h m (by omega)).tail ⟨h n (by omega), ?_⟩
    rw [unlockAt, unlockAt, Function.iterate_succ_apply']

/-! ### Parts of the call -/

/-- What the last assignments make of the caller at the head of `level_queue[0]`. -/
def headed (q : Proc) : Proc :=
  { q with level := 0, timeAllotment := 0, timeQuantum := 4, alreadyEnqueued := true }

/-- Two updates of one process. -/
theorem setProc_setProc (k : Kernel) (p : Slot) (f g : Proc → Proc) :
    (k.setProc p f).setProc p g = k.setProc p fun q => g (f q) := by
  simp only [Kernel.setProc, Function.update_self, Function.update_idem]

theorem setProc_setQueue (k : Kernel) (p : Slot) (f : Proc → Proc) (l : Nat) (h : Option Slot) :
    (k.setQueue l h).setProc p f = (k.setProc p f).setQueue l h := rfl

theorem unlockRun_setLevel_iff :
    UnlockRun k (.setLevel p) k' ↔ k' = k.setProc p headed := by
  rw [unlockRun_iff (by simp), unlockStep, unlockRun_iff (by simp), unlockStep,
    unlockRun_iff (by simp), unlockStep, unlockRun_iff (by simp), unlockStep, unlockRun_done_iff,
    setProc_setProc, setProc_setProc, setProc_setProc]
  rfl

theorem unlockRun_setHead_iff :
    UnlockRun k (.setHead p) k' ↔ k' = (k.setProc p headed).setQueue 0 (some p) := by
  rw [unlockRun_iff (by simp), unlockStep, unlockRun_setLevel_iff, setProc_setQueue]

/-- The second half of the call puts the process at the head of `level_queue[0]`. -/
theorem unlockRun_push_iff : UnlockRun k (.push p) k' ↔ k' = pushHead k p := by
  rw [unlockRun_iff (by simp), unlockStep, pushHead]
  split
  · rw [unlockRun_setHead_iff, setProc_setProc]
    rfl
  · exact unlockRun_done_iff

/-- The assignments behind the unlinking. -/
theorem unlockRun_clearNext_iff : UnlockRun k (.clearNext p) k' ↔
    k' = pushHead (k.setProc p fun q => { q with next := none, alreadyEnqueued := false }) p := by
  rw [unlockRun_iff (by simp), unlockStep, unlockRun_iff (by simp), unlockStep, unlockRun_push_iff,
    setProc_setProc]

/-- The loop of `dequeue_specific`. -/
theorem unlockRun_walk {n : Nat} {level : Nat} {prev cur : Option Slot} :
    (walkPrev k.next p n prev cur = some none →
      (UnlockRun k (.walk p level prev cur) k' ↔ UnlockRun k (.push p) k')) ∧
    ∀ r, walkPrev k.next p n prev cur = some (some r) →
      (UnlockRun k (.walk p level prev cur) k' ↔
        UnlockRun (unlinkBehind k p level r) (.clearNext p) k') := by
  induction n generalizing prev cur with
  | zero =>
    cases cur with
    | none =>
      refine ⟨fun _ => ?_, fun r hr => (by cases hr)⟩
      rw [unlockRun_iff (by simp), unlockStep]
    | some x => exact ⟨fun h => (by cases h), fun r hr => (by cases hr)⟩
  | succ n ih =>
    cases cur with
    | none =>
      refine ⟨fun _ => ?_, fun r hr => (by cases hr)⟩
      rw [unlockRun_iff (by simp), unlockStep]
    | some x =>
      have hrun := @unlockRun_iff k k' (.walk p level prev (some x)) (by simp)
      simp only [walkPrev]
      by_cases hx : x = p
      · rw [if_pos hx]
        refine ⟨fun h => (by cases h), fun r hr => ?_⟩
        cases hr
        rw [hrun, unlockStep, if_pos hx]
      · rw [if_neg hx]
        rw [hrun, unlockStep, if_neg hx]
        exact ih

/-- The loop that looks for the holder in one queue. -/
theorem unlockRun_search {n : Nat} {level : Nat} {cur : Option Slot} :
    (∀ x, walkFind k.next (fun i => (k.proc i).lockScheduler) n cur = some (some x) →
      (UnlockRun k (.search level cur) k' ↔ UnlockRun k (.found x) k')) ∧
    (walkFind k.next (fun i => (k.proc i).lockScheduler) n cur = some none →
      (UnlockRun k (.search level cur) k' ↔ UnlockRun k (.search level none) k')) := by
  induction n generalizing cur with
  | zero =>
    cases cur with
    | none => exact ⟨fun x hx => (by cases hx), fun _ => Iff.rfl⟩
    | some y => exact ⟨fun x hx => (by cases hx), fun h => (by cases h)⟩
  | succ n ih =>
    cases cur with
    | none => exact ⟨fun x hx => (by cases hx), fun _ => Iff.rfl⟩
    | some y =>
      have hrun := @unlockRun_iff k k' (.search level (some y)) (by simp)
      simp only [walkFind]
      by_cases hy : (k.proc y).lockScheduler = true
      · rw [if_pos hy]
        refine ⟨fun x hx => ?_, fun h => (by cases h)⟩
        cases hx
        rw [hrun, unlockStep, if_pos hy]
      · rw [if_neg hy]
        rw [hrun, unlockStep, if_neg hy]
        exact ih

/-- From the process found on, the rest of the call is `unlockFound`. -/
theorem unlockRun_found (h : unlockFound k p = .ok k') :
    UnlockRun k (.found p) k'' ↔ k'' = k' := by
  rw [unlockFound] at h
  obtain ⟨m, hm, h⟩ := bind_eq_ok.mp h
  cases h
  have hclear : UnlockRun k (.found p) k'' ↔ UnlockRun (clearLock k p) (.cleared p) k'' := by
    rw [unlockRun_iff (by simp), unlockStep, unlockRun_iff (by simp), unlockStep]
    rfl
  rw [hclear, unlockRun_iff (by simp), unlockStep]
  generalize clearLock k p = c at hm ⊢
  rw [dropNotRunnable] at hm
  by_cases hs : (c.proc p).state = .RUNNABLE
  · rw [if_neg (by simp [hs])] at hm ⊢
    cases hm
    exact unlockRun_push_iff
  · rw [if_pos hs, dequeueSpecific] at hm
    by_cases hflag : (c.proc p).alreadyEnqueued = false
    · rw [if_pos hflag] at hm
      cases hm
      rw [if_neg (by simp [hflag])]
      exact unlockRun_push_iff
    · rw [if_neg hflag] at hm
      rw [if_pos ⟨hs, by simpa using hflag⟩]
      obtain ⟨hnone, hsome⟩ := @unlockRun_walk c k'' p NPROC (c.proc p).level none
        (c.levelQueue (c.proc p).level)
      split at hm
      · cases hm
      · rename_i hw
        cases hm
        exact (hnone hw).trans unlockRun_push_iff
      · rename_i r hw
        cases hm
        refine (hsome r hw).trans (unlockRun_clearNext_iff.trans ?_)
        cases r with
        | none => rfl
        | some y => rfl

/-- **Without an interrupt** the assignments make up the call. -/
theorem unlockRun_unlockHolder (h : unlockHolder k = .ok k') :
    UnlockRun k (unlockStart k) k'' ↔ k'' = k' := by
  have hsearch : ∀ level, UnlockRun k (.search level none) k'' ↔
      if level + 1 < 3 then UnlockRun k (.search (level + 1) (k.levelQueue (level + 1))) k''
      else k'' = k := fun level => by
    rw [unlockRun_iff (by simp), unlockStep]
    split
    · rfl
    · exact unlockRun_done_iff
  rw [unlockHolder] at h
  unfold unlockStart
  split at h
  · rename_i hl
    cases h
    rw [if_pos hl]
    exact unlockRun_done_iff
  · rename_i hl
    rw [if_neg hl]
    obtain ⟨r, hr, h⟩ := bind_eq_ok.mp h
    -- one level after the other
    have hlevel : ∀ l ls, findHolder k (l :: ls) = .ok r →
        (∃ x, r = some x ∧ (UnlockRun k (.search l (k.levelQueue l)) k'' ↔
          UnlockRun k (.found x) k'')) ∨
        (findHolder k ls = .ok r ∧ (UnlockRun k (.search l (k.levelQueue l)) k'' ↔
          UnlockRun k (.search l none) k'')) := fun l ls hfind => by
      rw [findHolder] at hfind
      obtain ⟨hsome, hnone⟩ := @unlockRun_search k k'' NPROC l (k.levelQueue l)
      split at hfind
      · cases hfind
      · rename_i x hw
        cases hfind
        exact .inl ⟨x, rfl, hsome x hw⟩
      · rename_i hw
        exact .inr ⟨hfind, hnone hw⟩
    have hend : ∀ x, r = some x → (UnlockRun k (.found x) k'' ↔ k'' = k') := fun x hx => by
      rw [hx] at h
      exact unlockRun_found h
    rcases hlevel 0 [1, 2] hr with ⟨x, hx, h0⟩ | ⟨hr, h0⟩
    · exact h0.trans (hend x hx)
    rcases hlevel 1 [2] hr with ⟨x, hx, h1⟩ | ⟨hr, h1⟩
    · exact h0.trans (((hsearch 0).trans (by simpa using h1)).trans (hend x hx))
    rcases hlevel 2 [] hr with ⟨x, hx, h2⟩ | ⟨hr, h2⟩
    · exact h0.trans (((hsearch 0).trans (by simpa using h1.trans ((hsearch 1).trans
        (by simpa using h2)))).trans (hend x hx))
    · cases hr
      cases h
      rw [h0, hsearch 0, if_pos (by omega), h1, hsearch 1, if_pos (by omega), h2, hsearch 2,
        if_neg (by omega)]

end Xv6.Mlfq
