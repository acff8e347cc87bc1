import Xv6.Lib.Cycle
import Xv6.Lib.Transition
import Xv6.Thread.Kernel

namespace Xv6.Thread

open Xv6.Lib

/-!
# Threads — round robin inside a process

The inner loop of `scheduler()` for a process whose list of threads ends.

* `pickThread_eq` — the loop ends at the first `RUNNABLE` thread behind `current_thread`;
* `schedule_turn` — this thread runs, and is the new `current_thread`;
* `round_robin` — all `RUNNABLE` threads have their turn before one has it again.
-/

variable {k k' : Kernel} {xs ys : List Slot} {m p t cur : Slot}

/-- Can the thread be chosen? -/
def runnable (k : Kernel) (i : Slot) : Bool := decide ((k.proc i).state = .RUNNABLE)

/-- The loop over the process table is at `p`. -/
def Turn (k : Kernel) (p : Slot) : Prop :=
  ((List.finRange NPROC).find? fun i => k.scan ≤ i.val ∧ (k.proc i).state = .RUNNABLE) = some p

/-! ### One selection -/

/-- The loop follows the list until it has found a `RUNNABLE` thread. -/
theorem pickThread_eq {n : Nat} (hys : List.IsChain (fun a b => (k.next a).getD m = b) (cur :: ys))
    (hfind : ys.find? (runnable k) = some t) (hn : ys.length ≤ n) : pickThread k m n cur = some t := by
  induction ys generalizing cur n with
  | nil => cases hfind
  | cons y ys ih =>
    obtain ⟨hy, hrest⟩ := List.isChain_cons_cons.mp hys
    cases n with
    | zero => simp at hn
    | succ n =>
      have hnext : (k.proc cur).nextThread.getD m = y := hy
      rw [pickThread, hnext]
      rw [List.find?_cons] at hfind
      by_cases hrun : (k.proc y).state = .RUNNABLE
      · rw [runnable, decide_eq_true hrun] at hfind
        rw [if_pos hrun]
        exact hfind
      · rw [runnable, decide_eq_false hrun] at hfind
        rw [if_neg hrun]
        exact ih hrest hfind (Nat.le_of_succ_le_succ hn)

/-- The loop ends after at most one round, if the list ends and has a `RUNNABLE` thread. -/
theorem exists_pickThread (hc : Chain k.next (some m) xs) (hcur : cur ∈ xs) (hp : p ∈ xs)
    (hrun : (k.proc p).state = .RUNNABLE) : ∃ t ∈ xs, (k.proc t).state = .RUNNABLE ∧
      (∀ ys, Behind xs cur ys → ys.find? (runnable k) = some t) ∧
      ∀ n, xs.length ≤ n → pickThread k m n cur = some t := by
  obtain ⟨ys, hys⟩ := exists_behind hcur
  have hlen := hys.perm.length_eq
  have hsome : (ys.find? (runnable k)).isSome := by
    rw [List.find?_isSome]
    exact ⟨p, hys.perm.mem_iff.mpr hp, decide_eq_true hrun⟩
  obtain ⟨t, ht⟩ := Option.isSome_iff_exists.mp hsome
  have hpick : ∀ n, xs.length ≤ n → pickThread k m n cur = some t := fun n hn =>
    pickThread_eq (hc.isChain_behind hys) ht (by omega)
  have hrunt : runnable k t = true := List.find?_some ht
  refine ⟨t, hys.perm.mem_iff.mp (List.mem_of_find?_eq_some ht),
    of_decide_eq_true hrunt, fun zs hzs => ?_, hpick⟩
  -- The order behind `cur` is the one in which the loop goes.
  have hsome' : (zs.find? (runnable k)).isSome := by
    rw [List.find?_isSome]
    exact ⟨p, hzs.perm.mem_iff.mpr hp, decide_eq_true hrun⟩
  obtain ⟨t', ht'⟩ := Option.isSome_iff_exists.mp hsome'
  have hpick' := pickThread_eq (hc.isChain_behind hzs) ht' hzs.perm.length_eq.le
  rw [hpick _ (Nat.le_refl _)] at hpick'
  rw [ht', ← hpick']

/-- The thread that the inner loop finds runs and is the new `current_thread`. -/
theorem schedule_turn (hcpu : k.cpuProc = none) (hturn : Turn k p)
    (hmain : (k.proc p).mainThread = some m) (hcur : (k.proc m).currentThread = some cur)
    (hpick : pickThread k m NPROC cur = some t) : ∃ k', schedule k = .ok k' ∧ k'.cpuProc = some t ∧
      (k'.proc t).state = .RUNNING ∧ (k'.proc m).currentThread = some t := by
  have hidle : ¬ k.cpuProc.isSome = true := by simp [hcpu]
  have hrun : schedule k = .ok (({ k with cpuProc := some t, scan := p.val + 1 }.setProc m fun q =>
      { q with currentThread := some t }).setProc t fun q =>
      { q with state := .RUNNING, chan := none }) := by
    unfold Turn at hturn
    rw [schedule, if_neg hidle, hturn]
    dsimp only
    rw [hmain, deref, ok_bind, hcur, deref, ok_bind, hpick]
  refine ⟨_, hrun, rfl, ?_, ?_⟩
  · simp [Kernel.setProc]
  · by_cases hmt : m = t
    · subst hmt
      simp [Kernel.setProc]
    · simp [Kernel.setProc, hmt]

/-! ### Selections one after the other -/

/-- The process `m` has its turn in `k`.  When it has its next turn, in `k'`, it has the same threads,
    the same ones are `RUNNABLE`, and its `current_thread` is the one that has been recorded. -/
structure Round (m : Slot) (xs : List Slot) (k k' : Kernel) : Prop where
  turn : ∃ p ∈ xs, Turn k p ∧ (k.proc p).mainThread = some m ∧
    ∃ k₁, schedule k = .ok k₁ ∧ (k'.proc m).currentThread = (k₁.proc m).currentThread
  chain : Chain k'.next (some m) xs
  same : ∀ i ∈ xs, runnable k' i = runnable k i

/-- The thread that is selected in one round. -/
theorem Round.current (h : Round m xs k k') (hc : Chain k.next (some m) xs)
    (hcur : (k.proc m).currentThread = some cur) (hmem : cur ∈ xs) :
    ∃ t ∈ xs, (k'.proc m).currentThread = some t ∧
      ∀ ys, Behind xs cur ys → ys.find? (runnable k) = some t := by
  obtain ⟨p, hp, hturn, hmain, k₁, hsched, hrecord⟩ := h.turn
  have hrun : (k.proc p).state = .RUNNABLE := by
    have hfound := List.find?_some hturn
    exact (of_decide_eq_true hfound).2
  have hcpu : k.cpuProc = none := by
    by_contra hsome
    rw [schedule, if_pos (Option.isSome_iff_ne_none.mpr hsome)] at hsched
    cases hsched
  obtain ⟨t, ht, -, hfind, hpick⟩ := exists_pickThread hc hmem hp hrun
  obtain ⟨k₂, hsched', -, -, hnew⟩ :=
    schedule_turn hcpu hturn hmain hcur (hpick _ (by simpa using hc.length_le))
  rw [hsched] at hsched'
  cases hsched'
  exact ⟨t, ht, hrecord.trans hnew, hfind⟩

/-- The inner loop of `scheduler()` ends, at the first `RUNNABLE` thread in cyclic order behind
    `current_thread`, and records it; one selection after the other, all `RUNNABLE` threads have
    their turn before one has it again. -/
theorem round_robin (hc : Chain k.next (some m) xs) (hcur : (k.proc m).currentThread = some cur)
    (hmem : cur ∈ xs) (hp : p ∈ xs) (hrun : (k.proc p).state = .RUNNABLE)
    (hmain : (k.proc p).mainThread = some m) :
    (∃ t ∈ xs, (∀ ys, Behind xs cur ys → ys.find? (runnable k) = some t) ∧
      (∀ n, xs.length ≤ n → pickThread k m n cur = some t) ∧
      (k.cpuProc = none → Turn k p → ∃ k', schedule k = .ok k' ∧ k'.cpuProc = some t ∧
        (k'.proc t).state = .RUNNING ∧ (k'.proc m).currentThread = some t)) ∧
    ∀ ks : Nat → Kernel, ks 0 = k → (∀ i, Round m xs (ks i) (ks (i + 1))) →
      ∃ ts : Nat → Slot, (∀ i, ((ks (i + 1)).proc m).currentThread = some (ts (i + 1))) ∧
        ∀ i, ((List.range (xs.filter (runnable k)).length).map fun j => ts (i + j + 1)).Perm
          (xs.filter (runnable k)) := by
  constructor
  · obtain ⟨t, ht, -, hfind, hpick⟩ := exists_pickThread hc hmem hp hrun
    exact ⟨t, ht, hfind, hpick, fun hcpu hturn =>
      schedule_turn hcpu hturn hmain hcur (hpick _ (by simpa using hc.length_le))⟩
  · intro ks h0 hround
    have hchain : ∀ i, Chain (ks i).next (some m) xs := fun i => by
      cases i with
      | zero => rwa [h0]
      | succ i => exact (hround i).chain
    have hsame : ∀ i, ∀ j ∈ xs, runnable (ks i) j = runnable k j := by
      intro i j hj
      induction i with
      | zero => rw [h0]
      | succ i ih => rw [(hround i).same j hj, ih]
    have hcurrent : ∀ i, ∃ t ∈ xs, ((ks i).proc m).currentThread = some t := by
      intro i
      induction i with
      | zero => exact ⟨cur, hmem, by rw [h0, hcur]⟩
      | succ i ih =>
        obtain ⟨t, ht, hti⟩ := ih
        obtain ⟨t', ht', hti', -⟩ := (hround i).current (hchain i) hti ht
        exact ⟨t', ht', hti'⟩
    choose ts hts hcurrent using hcurrent
    refine ⟨ts, fun i => hcurrent (i + 1), perm_searches (hts 0) fun i ys hys => ?_⟩
    obtain ⟨t, -, hnew, hfind⟩ := (hround i).current (hchain i) (hcurrent i) (hts i)
    rw [hcurrent (i + 1)] at hnew
    rw [hnew, ← hfind ys hys]
    exact List.find?_congr fun j hj => (hsame i j (hys.perm.mem_iff.mp hj)).symm

/-- A process with two threads yields, and the other thread has its turn. -/
theorem round_robin_two : ∃ k k', Reachable Init (Steps step fun _ _ => True) k ∧
    (k.proc 1).currentThread = some 1 ∧ schedule k = .ok k' ∧ k'.cpuProc = some 2 := by
  obtain ⟨k₀, h₀⟩ : ∃ k, userinit boot 7 = .ok k := ⟨_, rfl⟩
  obtain ⟨k, hrun, hk⟩ := exec_of_execTest step k₀ (twoThreads ++ [.yield]) (fun k =>
    decide (k.cpuProc = none ∧ walkList k.next NPROC (some 1) = some [1, 2] ∧
      (k.proc 1).currentThread = some 1 ∧ (k.proc 2).state = .RUNNABLE ∧
      (k.proc 2).mainThread = some 1 ∧
      ((List.finRange NPROC).find? fun i => k.scan ≤ i.val ∧ (k.proc i).state = .RUNNABLE) = some 2))
    (by cases h₀; decide +kernel)
  rw [decide_eq_true_eq] at hk
  obtain ⟨hcpu, hwalk, hcur, hst, hmain, hturn⟩ := hk
  obtain ⟨⟨t, ht, hfind, -, hsched⟩, -⟩ := round_robin (walkList_some hwalk) hcur (by decide)
    (by decide) hst hmain
  obtain ⟨k', hok, hnew, -, -⟩ := hsched hcpu hturn
  have hbehind := hfind [2, 1] ⟨[], [2], rfl, rfl⟩
  rw [List.find?_cons, runnable, decide_eq_true hst] at hbehind
  obtain rfl := Option.some.inj hbehind
  exact ⟨k, k', reachable_exec (.start ⟨7, h₀⟩) (fun _ _ _ => trivial) hrun, hcur, hok, hnew⟩

end Xv6.Thread
