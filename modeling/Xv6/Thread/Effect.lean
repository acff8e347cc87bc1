import Xv6.Thread.Group

namespace Xv6.Thread

open Xv6.Lib

/-!
# Threads — what the operations change

Most operations assign to a few fields of a few slots.  This module says what they leave
unchanged in the views of the slots, and what the loops over the list of threads do when the
list is intact:

* `setSz_eq` — the loop that assigns the size of the process;
* `linkThread_eq` — the loops of `thread_create`;
* `freeThreads_eq` — the loop of `exit` and `kill_for_exec` that releases threads;
* `joinCheck_first` — `thread_join` of the first thread behind the main thread.
-/

/-! ### Views of the operations -/

section Views

variable {k : Kernel} {c p : Slot}

@[simp] theorem view_setProc (f : Proc → Proc) :
    (k.setProc p f).view = Function.update k.view p (f (k.proc p)).view := by
  funext i
  by_cases h : i = p
  · subst h; simp [Kernel.view, Kernel.setProc]
  · simp [Kernel.view, Kernel.setProc, h]

@[simp] theorem view_setCall (x : Call) : (k.setCall p x).view = k.view := rfl

@[simp] theorem view_setWalk (w : Walk) : (k.setWalk p w).view = k.view := rfl

theorem view_setProc_eq {f : Proc → Proc} (h : (f (k.proc p)).view = (k.proc p).view) :
    (k.setProc p f).view = k.view := by
  rw [view_setProc, h]
  exact Function.update_eq_self _ _

@[simp] theorem view_ret (r : Int) : (k.ret p r).view = k.view := by
  rw [Kernel.ret, view_setCall, view_setProc_eq rfl]

/-- An active process goes on to another active state. -/
theorem view_activate {f : Proc → Proc}
    (hf : (f (k.proc p)).view = { (k.proc p).view with life := .active })
    (hp : (k.view p).life = .active) : (k.setProc p f).view = k.view := by
  refine view_setProc_eq ?_
  rw [hf, ← hp]
  rfl

theorem view_setSize (sz : Nat) : (k.setProc p fun q => { q with sz := sz }).view = k.view :=
  view_setProc_eq rfl

theorem wakeOne_view (chan : Option Chan) (q : Proc) : (wakeOne chan q).view = q.view := by
  rw [wakeOne]
  split
  · rename_i h
    simp [Proc.view, h.1, ProcState.life]
  · rfl

@[simp] theorem view_wakeup1 (chan : Option Chan) : (wakeup1 k chan).view = k.view := by
  funext i
  exact wakeOne_view chan (k.proc i)

@[simp] theorem view_reparent : (reparent k c).view = k.view := by
  have h : ({ k with proc := fun i => if (k.proc i).parent = some c then
      { k.proc i with parent := k.initproc } else k.proc i } : Kernel).view = k.view := by
    funext i
    show Proc.view (if (k.proc i).parent = some c then _ else _) = _
    split <;> rfl
  rw [reparent]
  split
  · rw [view_wakeup1, h]
  · exact h

@[simp] theorem call_reparent : (reparent k c).call = k.call := by
  rw [reparent]; split <;> rfl

@[simp] theorem walk_reparent : (reparent k c).walk = k.walk := by
  rw [reparent]; split <;> rfl

@[simp] theorem dirs_reparent : (reparent k c).dirs = k.dirs := by
  rw [reparent]; split <;> rfl

theorem view_kill {pid : Int} : (kill k c pid).view = k.view := by
  rw [kill]
  split
  · exact view_ret _
  · refine (view_ret _).trans (view_setProc_eq ?_)
    simp only [Proc.view]
    split
    · rename_i h; simp [h, ProcState.life]
    · rfl

/-- The loop that assigns `sz`. -/
theorem setSz_eq (sz : Nat) (xs : List Slot) : setSz k sz xs = { k with
    proc := fun q => if q ∈ xs then { k.proc q with sz := sz } else k.proc q } := by
  induction xs generalizing k with
  | nil => simp [setSz]
  | cons x xs ih =>
    have hproc : (fun q => if q ∈ xs then { (k.setProc x fun q => { q with sz := sz }).proc q with
        sz := sz } else (k.setProc x fun q => { q with sz := sz }).proc q) =
        fun q => if q ∈ x :: xs then { k.proc q with sz := sz } else k.proc q := by
      funext q
      by_cases hq : q = x
      · subst hq; simp [Kernel.setProc]
      · simp [Kernel.setProc, hq]
    rw [setSz, List.foldl_cons]
    refine (ih (k := k.setProc x fun q => { q with sz := sz })).trans ?_
    rw [hproc]
    rfl

@[simp] theorem view_setSz (sz : Nat) (xs : List Slot) : (setSz k sz xs).view = k.view := by
  rw [setSz_eq]
  funext q
  simp only [Kernel.view]
  split <;> rfl

/-- The fields that `allocproc` sets. -/
theorem view_initSlot : (initSlot k p).view = Function.update k.view p { k.view p with
    life := .embryo, main := some p, pid := k.nextpid, tid := 0, createNum := 0 } := by
  rw [initSlot, view_setProc]
  rfl

theorem view_setStack (b : Bool) :
    (k.setProc p fun q => { q with kstack := b }).view = k.view := view_setProc_eq rfl

theorem view_copyFiles {q : Proc} :
    (k.setProc p fun n => copyFiles q n).view = k.view := view_setProc_eq rfl

theorem view_freeThread :
    (freeThread k p).view = Function.update k.view p (k.view p).freed := by
  rw [freeThread, view_setWalk, view_setCall, view_setProc]
  rfl

end Views

/-! ### Other slots -/

section Other

variable {k : Kernel} {c p q : Slot}

@[simp] theorem proc_setCall (x : Call) : (k.setCall p x).proc = k.proc := rfl

@[simp] theorem proc_setWalk (w : Walk) : (k.setWalk p w).proc = k.proc := rfl

theorem setProc_self {f : Proc → Proc} : (k.setProc p f).proc p = f (k.proc p) :=
  Function.update_self ..

theorem setProc_other {f : Proc → Proc} (h : q ≠ p) : (k.setProc p f).proc q = k.proc q :=
  Function.update_of_ne h ..

theorem ret_other {r : Int} (h : q ≠ c) : (k.ret c r).proc q = k.proc q := by
  rw [Kernel.ret, proc_setCall, setProc_other h]

theorem zombie_other {r : Nat} (h : q ≠ c) : (zombie k c r).proc q = k.proc q := by
  rw [zombie, proc_setWalk, proc_setCall, setProc_other h]

end Other

/-! ### The loop that releases threads -/

/-- The loop over an intact list releases the threads that meet the condition, if the condition
    depends only on the thread and on `c`, which does not meet it. -/
theorem freeThreads_eq (cond : Kernel → Slot → Bool) {c : Slot} (hc : ∀ k, cond k c = false)
    (hloc : ∀ k k' p, k'.proc p = k.proc p → k'.proc c = k.proc c → cond k' p = cond k p)
    {n : Nat} {k : Kernel} {h : Option Slot} {xs : List Slot} (hxs : Chain k.next h xs)
    (hn : xs.length ≤ n) :
    freeThreads cond n k h = .ok { k with
      proc := fun q => if q ∈ xs ∧ cond k q then (freeThread k q).proc q else k.proc q
      call := fun q => if q ∈ xs ∧ cond k q then .user else k.call q
      walk := fun q => if q ∈ xs ∧ cond k q then .idle else k.walk q } := by
  induction n generalizing k h xs with
  | zero =>
    have hnil : xs = [] := List.length_eq_zero_iff.mp (by omega)
    subst hnil
    rw [chain_nil_iff] at hxs
    subst hxs
    simp [freeThreads]
  | succ n ih =>
    cases h with
    | none =>
      rw [chain_none_iff] at hxs
      subst hxs
      simp [freeThreads]
    | some p =>
      have hnd := hxs.nodup
      obtain ⟨t, rfl, ht⟩ := chain_some_iff.mp hxs
      rw [List.nodup_cons] at hnd
      rw [freeThreads]
      generalize hk₁ : (if cond k p = true then freeThread k p else k) = k₁
      have hother : ∀ q, q ≠ p →
          k₁.proc q = k.proc q ∧ k₁.call q = k.call q ∧ k₁.walk q = k.walk q := by
        intro q hq
        rw [← hk₁]
        split
        · simp [freeThread, Kernel.setProc, Kernel.setCall, Kernel.setWalk, hq]
        · exact ⟨rfl, rfl, rfl⟩
      have hkc : k₁.proc c = k.proc c := by
        by_cases hcp : c = p
        · subst hcp; rw [← hk₁, hc k]; rfl
        · exact (hother c hcp).1
      have hcond : ∀ q, q ≠ p → cond k₁ q = cond k q := fun q hq =>
        hloc k k₁ q (hother q hq).1 hkc
      have ht₁ : Chain k₁.next (k.next p) t := by
        refine ht.congr fun a ha => ?_
        show (k₁.proc a).nextThread = _
        rw [(hother a fun hap => hnd.1 (hap ▸ ha)).1]
        rfl
      have hrec := ih ht₁ (by simpa using hn)
      have hproc : (fun q => if q ∈ t ∧ cond k₁ q = true then (freeThread k₁ q).proc q
          else k₁.proc q) = fun q => if q ∈ p :: t ∧ cond k q = true then (freeThread k q).proc q
          else k.proc q := by
        funext q
        by_cases hq : q = p
        · subst hq
          rw [if_neg fun hh => hnd.1 hh.1, ← hk₁]
          by_cases hcq : cond k q = true
          · simp [hcq]
          · simp [hcq]
        · have hf : (freeThread k₁ q).proc q = (freeThread k q).proc q := by
            simp [freeThread, Kernel.setProc, Kernel.setCall, Kernel.setWalk, (hother q hq).1]
          rw [hcond q hq, hf, (hother q hq).1]
          simp [hq]
      have hcall : (fun q => if q ∈ t ∧ cond k₁ q = true then Call.user else k₁.call q) =
          fun q => if q ∈ p :: t ∧ cond k q = true then Call.user else k.call q := by
        funext q
        by_cases hq : q = p
        · subst hq
          rw [if_neg fun hh => hnd.1 hh.1, ← hk₁]
          by_cases hcq : cond k q = true
          · simp [hcq, freeThread, Kernel.setCall, Kernel.setWalk]
          · simp [hcq]
        · rw [hcond q hq, (hother q hq).2.1]
          simp [hq]
      have hwalk : (fun q => if q ∈ t ∧ cond k₁ q = true then Walk.idle else k₁.walk q) =
          fun q => if q ∈ p :: t ∧ cond k q = true then Walk.idle else k.walk q := by
        funext q
        by_cases hq : q = p
        · subst hq
          rw [if_neg fun hh => hnd.1 hh.1, ← hk₁]
          by_cases hcq : cond k q = true
          · simp [hcq, freeThread, Kernel.setWalk]
          · simp [hcq]
        · rw [hcond q hq, (hother q hq).2.2]
          simp [hq]
      refine hrec.trans ?_
      rw [hproc, hcall, hwalk, ← hk₁]
      split <;> rfl

/-! ### The loops of `thread_create` -/

/-- The machine after `thread_create` has linked the new thread `np` behind `z`. -/
def linked (k : Kernel) (c z np : Slot) : Kernel :=
  let k := k.setProc np fun q => copyFiles (k.proc c) q
  let k := k.setProc z fun q => { q with nextThread := some np }
  k.setProc np fun q =>
    { q with nextThread := none, state := .RUNNABLE, isThread := true, joinThread := some c }

theorem next_linked {k : Kernel} {c z np : Slot} (hz : z ≠ np) : (linked k c z np).next =
    Function.update (Function.update k.next z (some np)) np none := by
  funext q
  by_cases hq : q = np
  · subst hq; simp [linked, Kernel.next, Kernel.setProc]
  · by_cases hqz : q = z
    · subst hqz; simp [linked, Kernel.next, Kernel.setProc, hq]
    · simp [linked, Kernel.next, Kernel.setProc, hq, hqz]

/-- The list with the new thread. -/
theorem chain_linked {k : Kernel} {c m z np : Slot} {ys : List Slot}
    (hxs : Chain k.next (some m) (ys ++ [z])) (hnp : np ∉ ys ++ [z]) :
    Chain (linked k c z np).next (some m) (ys ++ [z] ++ [np]) := by
  have hzn : z ≠ np := fun hzn => hnp (by simp [hzn])
  rw [next_linked hzn]
  obtain ⟨a, hseg, hlast⟩ := chain_append_iff.mp hxs
  rw [chain_cons_iff] at hlast
  have hnd := hxs.nodup
  rw [chain_append_iff]
  refine ⟨some np, ?_, by simp⟩
  rw [seg_append_iff]
  refine ⟨a, hseg.congr fun b hb => ?_, ?_⟩
  · have hbz : b ≠ z := by
      rintro rfl
      rw [List.nodup_append] at hnd
      exact hnd.2.2 b hb b (by simp) rfl
    have hbn : b ≠ np := fun hbn => hnp (by simp [← hbn, hb])
    rw [Function.update_of_ne hbn, Function.update_of_ne hbz]
  · rw [hlast.1]
    simp [hzn]

/-- `thread_create` links the new thread behind the last one of an intact list. -/
theorem linkThread_eq {k : Kernel} {c m z np : Slot} {ys : List Slot} (sz : Nat)
    (hxs : Chain k.next (some m) (ys ++ [z])) (hc : c ∈ ys ++ [z]) (hnp : np ∉ ys ++ [z])
    (hm : (k.proc c).mainThread = some m) :
    linkThread k c np sz = .ok (setSz (linked k c z np) sz (ys ++ [z] ++ [np])) := by
  have hcn : c ≠ np := fun hcn => hnp (hcn ▸ hc)
  have hlen : (ys ++ [z]).length ≤ NPROC := by simpa using hxs.length_le
  have hnext : (k.setProc np fun q => copyFiles (k.proc c) q).next = k.next := by
    funext q
    by_cases hq : q = np
    · subst hq; simp [Kernel.next, Kernel.setProc, copyFiles]
    · simp [Kernel.next, Kernel.setProc, hq]
  have hend := walkEnd_of_mem hxs hc hlen
  rw [List.getLast?_append, List.getLast?_singleton, Option.some_or] at hend
  have hmain : ((linked k c z np).proc c).mainThread = some m := by
    rw [← hm]
    by_cases hcz : c = z
    · subst hcz; simp [linked, Kernel.setProc, hcn]
    · simp [linked, Kernel.setProc, hcn, hcz]
  have hlist := chain_linked (c := c) hxs hnp
  have hwalk := walkList_eq hlist (n := NPROC) (by simpa using hlist.length_le)
  rw [linkThread]
  simp only [hnext, hend]
  show (deref ((linked k c z np).proc c).mainThread >>= fun m' => _) = _
  rw [hmain]
  change (Except.ok m >>= _) = _
  rw [linked] at hwalk
  rw [ok_bind]
  simp only [hwalk]
  rfl

theorem view_linked {k : Kernel} {c z np : Slot} (hz : z ≠ np) : (linked k c z np).view =
    Function.update (Function.update k.view z { k.view z with next := some np }) np
      { k.view np with next := none, life := .active, join := some c } := by
  funext q
  by_cases hq : q = np
  · subst hq
    simp [linked, Kernel.view, Kernel.setProc, hz.symm, Proc.view, copyFiles, ProcState.life]
  · by_cases hqz : q = z
    · subst hqz; simp [linked, Kernel.view, Kernel.setProc, hq, Proc.view]
    · simp [linked, Kernel.view, Kernel.setProc, hq, hqz]

/-! ### `thread_join` of the first thread -/

/-- The machine after `thread_join` by `c` has taken `p` out of the list, as the first thread
    behind the main thread `m`. -/
def unlinked (k : Kernel) (c m p : Slot) : Kernel :=
  (k.setProc c fun q => { q with joinVal := (k.proc p).retval }).setProc m fun q =>
    { q with nextThread := (k.proc p).nextThread
             currentThread := if q.currentThread = some p then some m else q.currentThread }

/-- `thread_join` of a zombie that is the first thread behind the main thread. -/
theorem joinCheck_first {k : Kernel} {c m p : Slot} (hz : (k.proc p).state = .ZOMBIE)
    (hnext : (k.proc m).nextThread = some p) (hmain : (k.proc p).mainThread = some m)
    (hpm : p ≠ m) (hpc : p ≠ c) :
    joinCheck k c m p = .ok ((freeThread (unlinked k c m p) p).ret c 0) := by
  generalize hk₁ : (k.setProc c fun q => { q with joinVal := (k.proc p).retval }) = k₁
  have hnext₁ : ∀ q, (k₁.proc q).nextThread = (k.proc q).nextThread := by
    intro q
    rw [← hk₁]
    by_cases hq : q = c
    · subst hq; simp [Kernel.setProc]
    · simp [Kernel.setProc, hq]
  have hp₁ : k₁.proc p = k.proc p := by rw [← hk₁]; simp [Kernel.setProc, hpc]
  have hunlink : unlinkThread k₁ m p = .ok (k₁.setProc m fun q =>
      { q with nextThread := (k.proc p).nextThread
               currentThread := if q.currentThread = some p then some m else q.currentThread }) := by
    rw [unlinkThread, if_pos (by rw [hnext₁, hnext]), hp₁, moveCurrent]
    have hmain₁ : ((k₁.setProc m fun q => { q with nextThread := (k.proc p).nextThread }).proc
        p).mainThread = some m := by simp [Kernel.setProc, hpm, hp₁, hmain]
    rw [hmain₁]
    show (if _ then _ else _ : Except Stop Kernel) = _
    by_cases hcur : (k₁.proc m).currentThread = some p
    · simp [Kernel.setProc, hcur]
    · simp [Kernel.setProc, hcur]
  rw [joinCheck, if_neg (by simpa using hz), hk₁, hunlink, unlinked, hk₁]
  rfl

theorem view_unlinked {k : Kernel} {c m p : Slot} : (unlinked k c m p).view =
    Function.update k.view m { k.view m with next := (k.view p).next } := by
  have hc : (k.setProc c fun q => { q with joinVal := (k.proc p).retval }).view = k.view :=
    view_setProc_eq rfl
  rw [unlinked, view_setProc, hc]
  congr 1
  show { ((k.setProc c _).view m) with next := (k.view p).next } = _
  rw [hc]

end Xv6.Thread
