import Xv6.Lib.Transition

namespace Xv6.Fs

open Xv6.Lib

/-!
# Log — who waits for a commit (`pj3/log.c`)

A system call that finds `log.committing` set sleeps on `&log` in `begin_op`.  `sync` clears the
flag on two ways out and wakes nobody: the wakeup is issued in `end_op`.

* `waitStep` — the critical sections of `log.lock` in `begin_op`, `end_op` and `sync`, for any set
  of processes;
* `Stranded` — somebody sleeps in `begin_op` and there is no reason to;
* `clear_strands` — exactly when clearing the flag strands somebody;
* `nobody_stranded` — nobody is ever stranded while the flag is only cleared when somebody is
  still to call `end_op`, or nobody sleeps;
* `sync_strands` — a run in which the system call `sync` strands a process.
-/

variable {P : Type*}

/-- Where a process is with respect to `begin_op` and `end_op`. -/
inductive Place
  | outside
  /-- in `begin_op`, woken up or about to look at `log.committing` -/
  | testing
  /-- in `begin_op`, `SLEEPING` on `&log` -/
  | asleep
  | inside
  deriving DecidableEq, Repr

/-- Where a process is in a `sync` that has set `log.committing`. -/
inductive Committer
  | collecting
  | writing
  deriving DecidableEq, Repr

/-- `log.committing`, and where the processes are. -/
structure Waiters (P : Type*) where
  committing : Bool
  place : P → Place
  sync : P → Option Committer

/-- The critical sections of `log.lock`, and `kill`, which makes a sleeper runnable. -/
inductive WaitStep (P : Type*)
  | enter (p : P)
  | test (p : P)
  | endOp (p : P)
  | kill (p : P)
  | syncStart (p : P)
  | syncCollected (p : P)
  | syncNothing (p : P)
  | syncWritten (p : P)

section Steps

variable [DecidableEq P]

/-- `log.committing = 0` at the end of `sync` by `p`. -/
def clearCommitting (s : Waiters P) (p : P) : Waiters P :=
  { s with committing := false, sync := Function.update s.sync p none }

/-- `wakeup(&log)`. -/
def wakeLog (s : Waiters P) : Waiters P :=
  { s with place := fun q => if s.place q = .asleep then .testing else s.place q }

/-- One step; a process is in `begin_op`, `end_op` or `sync` only when it can call it. -/
def waitStep (s : Waiters P) : WaitStep P → Except Unit (Waiters P)
  | .enter p =>
    if s.place p = .outside ∧ s.sync p = none then
      .ok { s with place := Function.update s.place p .testing }
    else .error ()
  | .test p =>
    -- one round of the loop in `begin_op`; `sleep` gives up `log.lock`
    if s.place p = .testing then
      .ok { s with place := Function.update s.place p (if s.committing then .asleep else .inside) }
    else .error ()
  | .endOp p =>
    if s.place p = .inside ∧ s.sync p = none then
      .ok (wakeLog { s with place := Function.update s.place p .outside })
    else .error ()
  | .kill p =>
    .ok (if s.place p = .asleep then { s with place := Function.update s.place p .testing } else s)
  | .syncStart p =>
    -- the system call, or a call by `bget`, which can be one inside `sync`
    if s.place p = .outside ∨ s.place p = .inside then
      if s.committing then .ok s
      else .ok { s with committing := true, sync := Function.update s.sync p (some .collecting) }
    else .error ()
  | .syncCollected p =>
    if s.sync p = some .collecting then
      .ok { s with sync := Function.update s.sync p (some .writing) }
    else .error ()
  | .syncNothing p => if s.sync p = some .collecting then .ok (clearCommitting s p) else .error ()
  | .syncWritten p => if s.sync p = some .writing then .ok (clearCommitting s p) else .error ()

/-- The step clears `log.committing`. -/
def WaitStep.clears : WaitStep P → Bool
  | .syncNothing _ | .syncWritten _ => true
  | _ => false

end Steps

/-- At the start nobody is in the file system. -/
def WaitInit (s : Waiters P) : Prop :=
  s.committing = false ∧ (∀ p, s.place p = .outside) ∧ ∀ p, s.sync p = none

/-- Some process sleeps in `begin_op`, although nothing is committed, no process is between
    `begin_op` and `end_op`, and none is in `sync`. -/
def Stranded (s : Waiters P) : Prop :=
  s.committing = false ∧ (∀ p, s.place p ≠ .inside ∧ s.sync p = none) ∧ ∃ p, s.place p = .asleep

/-- When the step clears `log.committing`, nobody sleeps in `begin_op`, or somebody is still to call
    `end_op`. -/
def SomebodyWakes (s : Waiters P) (e : WaitStep P) : Prop :=
  e.clears = true → (∀ p, s.place p ≠ .asleep) ∨ ∃ p, s.place p = .inside

/-- At most one process commits, and while nobody does, a sleeper is woken up by a process that is
    still to call `end_op`. -/
structure WaitInv (s : Waiters P) : Prop where
  committing : ∀ p, s.sync p ≠ none → s.committing = true
  unique : ∀ p q, s.sync p ≠ none → s.sync q ≠ none → p = q
  woken : s.committing = false → (∃ p, s.place p = .asleep) → ∃ p, s.place p = .inside

section Invariant

variable {s t : Waiters P} {p : P}

/-- Only who waits and who works matters for who is woken up. -/
theorem WaitInv.places (h : WaitInv s) {place : P → Place}
    (hplace : s.committing = false → (∃ p, place p = .asleep) → ∃ p, place p = .inside) :
    WaitInv { s with place := place } :=
  ⟨h.committing, h.unique, hplace⟩

theorem WaitInv.init (h : WaitInit s) : WaitInv s := by
  obtain ⟨_, hplace, hsync⟩ := h
  refine ⟨fun p hp => absurd (hsync p) hp, fun p _ hp => absurd (hsync p) hp, ?_⟩
  rintro - ⟨p, hp⟩
  rw [hplace p] at hp
  cases hp

theorem WaitInv.not_stranded (h : WaitInv s) : ¬ Stranded s := by
  rintro ⟨hc, hidle, hasleep⟩
  obtain ⟨p, hp⟩ := h.woken hc hasleep
  exact (hidle p).1 hp

variable [DecidableEq P]

theorem WaitInv.sync_update (h : WaitInv s) {c : Committer} (hp : s.sync p ≠ none)
    (hc : s.committing = true) : WaitInv { s with sync := Function.update s.sync p (some c) } := by
  have hsync : ∀ q, Function.update s.sync p (some c) q ≠ none → s.sync q ≠ none := fun q hq => by
    by_cases hqp : q = p
    · subst hqp; exact hp
    · rwa [Function.update_of_ne hqp] at hq
  exact ⟨fun _ _ => hc, fun q r hq hr => h.unique q r (hsync q hq) (hsync r hr),
    fun hf => by simp [hc] at hf⟩

/-- The flag is cleared by the only process that commits. -/
theorem WaitInv.clear_sync (h : WaitInv s) (hp : s.sync p ≠ none) (q : P) :
    (clearCommitting s p).sync q = none := by
  show Function.update s.sync p none q = none
  by_cases hqp : q = p
  · subst hqp; rw [Function.update_self]
  · rw [Function.update_of_ne hqp]
    by_contra hq
    exact hqp (h.unique q p hq hp)

theorem WaitInv.clear (h : WaitInv s) (hp : s.sync p ≠ none)
    (hwake : (∀ q, s.place q ≠ .asleep) ∨ ∃ q, s.place q = .inside) :
    WaitInv (clearCommitting s p) := by
  have hsync := h.clear_sync hp
  refine ⟨fun q hq => absurd (hsync q) hq, fun q _ hq => absurd (hsync q) hq, ?_⟩
  rintro - ⟨q, hq⟩
  exact hwake.resolve_left fun hnone => hnone q hq

theorem WaitInv.step {e : WaitStep P} (h : WaitInv s) (hG : SomebodyWakes s e)
    (hrun : waitStep s e = .ok t) : WaitInv t := by
  cases e with
  | enter p =>
    rw [waitStep] at hrun
    split at hrun
    · rename_i hp
      cases hrun
      refine h.places fun hc ⟨q, hq⟩ => ?_
      have hqp : q ≠ p := fun hqp => by subst hqp; simp at hq
      rw [Function.update_of_ne hqp] at hq
      obtain ⟨r, hr⟩ := h.woken hc ⟨q, hq⟩
      refine ⟨r, ?_⟩
      rw [Function.update_of_ne (fun hrp => by subst hrp; rw [hp.1] at hr; cases hr), hr]
    · cases hrun
  | test p =>
    rw [waitStep] at hrun
    split at hrun
    · cases hrun
      refine h.places fun hc _ => ⟨p, ?_⟩
      rw [Function.update_self, hc]
      rfl
    · cases hrun
  | endOp p =>
    rw [waitStep] at hrun
    split at hrun
    · cases hrun
      -- `end_op` leaves nobody asleep
      rw [wakeLog]
      refine h.places fun _ ⟨q, hq⟩ => ?_
      simp only at hq
      split at hq
      · cases hq
      · rename_i hne
        exact absurd hq hne
    · cases hrun
  | kill p =>
    cases hrun
    split
    · rename_i hp
      refine h.places fun hc ⟨q, hq⟩ => ?_
      obtain ⟨r, hr⟩ := h.woken hc ⟨p, hp⟩
      refine ⟨r, ?_⟩
      rw [Function.update_of_ne (fun hrp => by subst hrp; rw [hp] at hr; cases hr), hr]
    · exact h
  | syncStart p =>
    rw [waitStep] at hrun
    split at hrun
    · split at hrun
      · cases hrun; exact h
      · rename_i hc
        cases hrun
        have hnone : ∀ q, s.sync q = none := fun q => by
          by_contra hq
          exact hc (h.committing q hq)
        have hself : ∀ q, Function.update s.sync p (some .collecting) q ≠ none → q = p :=
          fun q hq => by
            by_contra hqp
            rw [Function.update_of_ne hqp] at hq
            exact hq (hnone q)
        exact ⟨fun _ _ => rfl, fun q r hq hr => (hself q hq).trans (hself r hr).symm,
          fun hf => by cases hf⟩
    · cases hrun
  | syncCollected p =>
    rw [waitStep] at hrun
    split at hrun
    · rename_i hp
      cases hrun
      have hne : s.sync p ≠ none := by simp [hp]
      exact h.sync_update hne (h.committing p hne)
    · cases hrun
  | syncNothing p =>
    rw [waitStep] at hrun
    split at hrun
    · rename_i hp
      cases hrun
      exact h.clear (by simp [hp]) (hG rfl)
    · cases hrun
  | syncWritten p =>
    rw [waitStep] at hrun
    split at hrun
    · rename_i hp
      cases hrun
      exact h.clear (by simp [hp]) (hG rfl)
    · cases hrun

/-- Only the process that commits clears the flag. -/
theorem waitStep_clears {e : WaitStep P} (he : e.clears = true) (hrun : waitStep s e = .ok t) :
    ∃ p, s.sync p ≠ none ∧ t = clearCommitting s p := by
  cases e with
  | syncNothing p =>
    rw [waitStep] at hrun
    split at hrun
    · rename_i hp
      cases hrun
      exact ⟨p, by simp [hp], rfl⟩
    · cases hrun
  | syncWritten p =>
    rw [waitStep] at hrun
    split at hrun
    · rename_i hp
      cases hrun
      exact ⟨p, by simp [hp], rfl⟩
    · cases hrun
  | _ => cases he

/-- Clearing the flag strands somebody exactly when nobody is left who wakes the sleepers up. -/
theorem clear_strands {e : WaitStep P} (h : WaitInv s) (he : e.clears = true)
    (hrun : waitStep s e = .ok t) : Stranded t ↔ ¬ SomebodyWakes s e := by
  obtain ⟨p, hp, rfl⟩ := waitStep_clears he hrun
  constructor
  · rintro ⟨-, hidle, q, hq⟩ hwake
    rcases hwake he with hnone | ⟨r, hr⟩
    · exact hnone q hq
    · exact (hidle r).1 hr
  · intro hnot
    rw [SomebodyWakes, not_forall] at hnot
    obtain ⟨-, hnot⟩ := hnot
    rw [not_or, not_forall, not_exists] at hnot
    obtain ⟨⟨q, hq⟩, hinside⟩ := hnot
    exact ⟨rfl, fun r => ⟨hinside r, h.clear_sync hp r⟩, q, not_not.mp hq⟩

/-- **Nobody is stranded** in a run in which `log.committing` is only cleared when nobody sleeps in
    `begin_op` or somebody is still to call `end_op`. -/
theorem nobody_stranded (h : Reachable WaitInit (Steps waitStep SomebodyWakes) s) : ¬ Stranded s := by
  have hinv : WaitInv s := by
    refine h.invariant (fun _ => .init) ?_
    rintro s t hs ⟨e, hG, hstep⟩
    exact hs.step hG hstep
  exact hinv.not_stranded

end Invariant

/-! ### Runs of two processes -/

/-- Nobody is in the file system yet. -/
def noWaiters : Waiters (Fin 2) := ⟨false, fun _ => .outside, fun _ => none⟩

instance (s : Waiters (Fin 2)) (e : WaitStep (Fin 2)) : Decidable (SomebodyWakes s e) :=
  inferInstanceAs (Decidable (_ → _))

/-- Process 1 waits for a commit that process 0 has started in the middle of an operation. -/
theorem nobody_stranded_inside : ∃ s : Waiters (Fin 2), s.place 1 = .asleep ∧
    s.committing = false ∧ ¬ Stranded s := by
  have hstart : Reachable WaitInit (Steps waitStep SomebodyWakes) noWaiters :=
    .start ⟨rfl, fun _ => rfl, fun _ => rfl⟩
  obtain ⟨s, hs, ht⟩ := reachable_of_reachTest waitStep SomebodyWakes
    (fun s => decide (s.place 1 = .asleep ∧ s.committing = false))
    [.enter 0, .test 0, .syncStart 0, .syncCollected 0, .enter 1, .test 1, .syncWritten 0]
    hstart (by decide +kernel)
  rw [decide_eq_true_eq] at ht
  exact ⟨s, ht.1, ht.2, nobody_stranded hs⟩

/-- The system call `sync` of process 0 strands process 1, which called `begin_op` meanwhile. -/
theorem sync_strands :
    ¬ ∀ s : Waiters (Fin 2), Reachable WaitInit (Steps waitStep fun _ _ => True) s → ¬ Stranded s := by
  obtain ⟨s, hs⟩ : ∃ s, exec waitStep noWaiters [.syncStart 0, .enter 1, .test 1, .syncNothing 0] =
      .ok s := ⟨_, rfl⟩
  intro h
  refine h s (reachable_exec (.start ⟨rfl, fun _ => rfl, fun _ => rfl⟩) (fun _ _ _ => trivial) hs) ?_
  cases hs
  exact ⟨rfl, by decide, 1, rfl⟩

end Xv6.Fs
