import Xv6.Thread.Steps

namespace Xv6.Thread

open Xv6.Lib

/-!
# Threads — where the system calls go on

`step_call` says for every step of the machine how it changes the place of a process inside its
call: the process stays where it is, returns to user mode, or is the running process and goes on
to the next place of its call (`Enters`).
-/

/-- The steps with an `allocproc`. -/
def Step.allocates : Step → Bool
  | .forkAlloc _ | .createAlloc _ => true
  | _ => false

/-- The steps of `thread_join`. -/
def Step.joins : Step → Bool
  | .threadJoin _ | .joinCheck => true
  | _ => false

/-- The places of its call to which the running process `c` goes with a step. -/
inductive Enters (k : Kernel) (c : Slot) : Step → Call → Prop
  | fork (ok : Bool) (np : Slot) (hnp : firstUnused k = some np) :
      Enters k c (.forkAlloc ok) (.fork np)
  | forkCopied (dir : Option Nat) (np : Slot) (hcall : k.call c = .fork np) :
      Enters k c (.forkCopy dir) (.forkCopied np)
  | create (ok : Bool) (m np : Slot) (hm : (k.proc c).mainThread = some m)
      (hnp : firstUnused k = some np) : Enters k c (.createAlloc ok) (.create m np)
  | exit (e : Step) (he : e = .exitBegin ∨ ∃ r, e = .threadExitBegin r) : Enters k c e .exit
  | threadExit (r : Nat) : Enters k c (.threadExitBegin r) (.threadExit r)
  | wait : Enters k c .wait .wait
  | join (e : Step) (m p : Slot) (he : e.joins = true) : Enters k c e (.join m p)
  | exec (d sz : Nat) : Enters k c (.execCommit d sz) (.exec (k.proc c).pgdir)
  | sbrk (n : Int) (hlo : -2 ^ 31 ≤ n) (hhi : n < 2 ^ 31) :
      Enters k c (.sbrk n) (.sbrk (k.proc c).sz n)

variable {k k' : Kernel} {c p q : Slot} {e : Step}

/-- The place of `q` inside its call is the same, or `q` was released. -/
def CallKept (k k' : Kernel) (q : Slot) : Prop :=
  k'.call q = k.call q ∨ (k'.call q = .user ∧ (k'.proc q).state = .UNUSED)

/-- How a step may change the place of `q` inside its call. -/
def GoesOn (k : Kernel) (e : Step) (k' : Kernel) (q : Slot) : Prop :=
  CallKept k k' q ∨ (k.cpuProc = some q ∧ (k'.call q = .user ∨ Enters k q e (k'.call q)))

/-! ### Assignments -/

theorem GoesOn.same (h : k'.call = k.call) : GoesOn k e k' q := .inl (.inl (by rw [h]))

/-- The running process enters a place of its call. -/
theorem GoesOn.enter {x : Call} (h : k'.call = Function.update k.call c x)
    (hc : k.cpuProc = some c) (hx : Enters k c e x) : GoesOn k e k' q := by
  by_cases hq : q = c
  · subst hq
    have hself : k'.call q = x := by rw [h, Function.update_self]
    exact .inr ⟨hc, .inr (hself ▸ hx)⟩
  · exact .inl (.inl (by rw [h, Function.update_of_ne hq]))

/-- Threads are released before the call of the running process returns. -/
theorem GoesOn.after (k₁ : Kernel) (h₁ : CallKept k k₁ q) (hc : k.cpuProc = some c)
    (h : k'.call = Function.update k₁.call c .user)
    (hst : q ≠ c → (k₁.proc q).state = .UNUSED → (k'.proc q).state = .UNUSED) :
    GoesOn k e k' q := by
  by_cases hq : q = c
  · subst hq
    exact .inr ⟨hc, .inl (by rw [h, Function.update_self])⟩
  · have hk : k'.call q = k₁.call q := by rw [h, Function.update_of_ne hq]
    rcases h₁ with h₁ | ⟨h₁, hu⟩
    · exact .inl (.inl (hk.trans h₁))
    · exact .inl (.inr ⟨hk.trans h₁, hst hq hu⟩)

/-- The call of the running process returns. -/
theorem GoesOn.leave (h : k'.call = Function.update k.call c .user) (hc : k.cpuProc = some c) :
    GoesOn k e k' q := by
  by_cases hq : q = c
  · subst hq
    exact .inr ⟨hc, .inl (by rw [h, Function.update_self])⟩
  · exact .inl (.inl (by rw [h, Function.update_of_ne hq]))

theorem call_freeThread : (freeThread k p).call = Function.update k.call p .user := rfl

theorem callKept_freeThread (h : CallKept k k' q) : CallKept k (freeThread k' p) q := by
  by_cases hq : q = p
  · subst hq
    refine .inr ⟨Function.update_self .., ?_⟩
    rw [freeThread, proc_setWalk, proc_setCall, setProc_self]
  · rw [CallKept, call_freeThread, Function.update_of_ne hq, freeThread, proc_setWalk,
      proc_setCall, setProc_other hq]
    exact h

theorem callKept_freeThreads {k₁ : Kernel} {cond : Kernel → Slot → Bool} {n : Nat}
    {h : Option Slot} (hk : CallKept k k₁ q) (hs : freeThreads cond n k₁ h = .ok k') :
    CallKept k k' q := by
  induction n generalizing k₁ h with
  | zero =>
    cases h with
    | none => cases hs; exact hk
    | some p => cases hs
  | succ n ih =>
    cases h with
    | none => cases hs; exact hk
    | some p =>
      rw [freeThreads] at hs
      refine ih ?_ hs
      split
      · exact callKept_freeThread hk
      · exact hk

/-- Waking and passing on children leaves unused slots alone. -/
theorem unused_wakeup1 (chan : Option Chan) (h : (k.proc q).state = .UNUSED) :
    ((wakeup1 k chan).proc q).state = .UNUSED := by
  show (wakeOne chan (k.proc q)).state = _
  rw [wakeOne, if_neg fun hh => by rw [h] at hh; cases hh.1]
  exact h

theorem unused_reparent (h : (k.proc q).state = .UNUSED) :
    ((reparent k c).proc q).state = .UNUSED := by
  have hfirst : (if (k.proc q).parent = some c then { k.proc q with parent := k.initproc }
      else k.proc q).state = .UNUSED := by
    split <;> exact h
  rw [reparent]
  split
  · exact unused_wakeup1 _ hfirst
  · exact hfirst

theorem call_closeFile {fd : Nat} (hs : closeFile k p fd = .ok k') : k'.call = k.call := by
  obtain ⟨f, _, rfl⟩ := closeFile_ok hs
  rfl

theorem call_closeFiles (hs : closeFiles k c = .ok k') : k'.call = k.call := by
  rw [closeFiles] at hs
  split at hs
  · cases hs
  · cases hs
  · cases hs; rfl
  · obtain ⟨k₁, hk₁, hs⟩ := bind_eq_ok.mp hs
    cases hs
    exact (call_closeFile hk₁ :)
  · split at hs <;> (cases hs; rfl)
  · obtain ⟨k₁, hk₁, hs⟩ := bind_eq_ok.mp hs
    cases hs
    exact (call_closeFile hk₁ :)

theorem call_setSz (sz : Nat) (xs : List Slot) : (setSz k sz xs).call = k.call := by
  rw [setSz_eq]

theorem call_linkThread {np : Slot} {sz : Nat} (hs : linkThread k c np sz = .ok k') :
    k'.call = k.call := by
  rw [linkThread] at hs
  split at hs
  · cases hs
  · obtain ⟨m, _, hs⟩ := bind_eq_ok.mp hs
    split at hs
    · cases hs
    · cases hs
      exact call_setSz ..

theorem call_moveCurrent {prev : Slot} (hs : moveCurrent k p prev = .ok k') :
    k'.call = k.call := by
  obtain ⟨m, _, hs⟩ := bind_eq_ok.mp hs
  split at hs <;> (cases hs; rfl)

theorem call_unlinkLoop {n : Nat} {prev prev' : Slot} (hs : unlinkLoop p n k prev = .ok (k', prev')) :
    k'.call = k.call := by
  induction n generalizing k prev with
  | zero => cases hs
  | succ n ih =>
    rw [unlinkLoop] at hs
    split at hs
    · cases hs; rfl
    · obtain ⟨q, _, hs⟩ := bind_eq_ok.mp hs
      exact (ih hs :)

theorem call_unlinkThread {m : Slot} (hs : unlinkThread k m p = .ok k') : k'.call = k.call := by
  rw [unlinkThread] at hs
  split at hs
  · exact (call_moveCurrent hs :)
  · obtain ⟨q, _, hs⟩ := bind_eq_ok.mp hs
    obtain ⟨⟨k₁, prev⟩, hk₁, hs⟩ := bind_eq_ok.mp hs
    rw [call_moveCurrent hs, call_unlinkLoop hk₁]

theorem call_schedule (hs : schedule k = .ok k') : k'.call = k.call := by
  rw [schedule] at hs
  split at hs
  · cases hs
  · split at hs
    · cases hs; rfl
    · obtain ⟨m, _, hs⟩ := bind_eq_ok.mp hs
      obtain ⟨cur, _, hs⟩ := bind_eq_ok.mp hs
      split at hs
      · cases hs
      · cases hs; rfl

/-! ### The steps -/

theorem GoesOn.allocproc {next : Slot → Call} {ok : Bool} (hc : k.cpuProc = some c)
    (hnext : ∀ p, firstUnused k = some p → Enters k c e (next p)) :
    GoesOn k e (allocproc k c next ok) q := by
  rw [Thread.allocproc]
  split
  · exact .leave rfl hc
  · rename_i p hp
    split
    · exact .enter rfl hc (hnext p hp)
    · exact .leave rfl hc

theorem GoesOn.exitBegin (hc : k.cpuProc = some c) (hs : Thread.exitBegin k c = .ok k')
    (he : Enters k c e .exit) : GoesOn k e k' q := by
  rw [Thread.exitBegin] at hs
  split at hs
  · cases hs
  · obtain ⟨m, _, hs⟩ := bind_eq_ok.mp hs
    cases hs
    exact .enter rfl hc he

theorem GoesOn.joinCheck {m : Slot} (hc : k.cpuProc = some c)
    (hs : Thread.joinCheck k c m p = .ok k') (he : Enters k c e (.join m p)) : GoesOn k e k' q := by
  rw [Thread.joinCheck] at hs
  split at hs
  · cases hs
    exact .enter rfl hc he
  · obtain ⟨k₁, hk₁, hs⟩ := bind_eq_ok.mp hs
    cases hs
    refine .after (freeThread k₁ p) (callKept_freeThread (.inl ?_)) hc rfl fun hq hu => ?_
    · rw [call_unlinkThread hk₁]
      rfl
    · rw [ret_other hq]
      exact hu

theorem GoesOn.createFinish {m np : Slot} {ok : Bool} (hc : k.cpuProc = some c)
    (hs : Thread.createFinish k c m np ok = .ok k') : GoesOn k e k' q := by
  rw [Thread.createFinish] at hs
  split at hs
  · cases hs; exact .leave rfl hc
  · split at hs
    · cases hs; exact .leave rfl hc
    · exact .leave (call_linkThread hs) hc

theorem GoesOn.exit (hc : k.cpuProc = some c) (hs : Thread.exit k c = .ok k') :
    GoesOn k e k' q := by
  obtain ⟨k₁, hk₁, hs⟩ := bind_eq_ok.mp hs
  cases hs
  refine .after k₁ (callKept_freeThreads (.inl rfl) hk₁) hc ?_ fun hq hu => ?_
  · show Function.update (reparent (wakeup1 k₁ _) c).call c .user = _
    rw [call_reparent]
    rfl
  · rw [zombie_other hq]
    exact unused_reparent (unused_wakeup1 _ hu)

theorem GoesOn.wait (hc : k.cpuProc = some c) (hs : Thread.wait k c = .ok k') :
    GoesOn k .wait k' q := by
  rw [Thread.wait] at hs
  split at hs
  · obtain ⟨m, _, hs⟩ := bind_eq_ok.mp hs
    obtain ⟨k₁, hk₁, hs⟩ := bind_eq_ok.mp hs
    obtain ⟨d, _, rfl⟩ := freevm_ok hk₁
    cases hs
    exact .leave rfl hc
  · split at hs
    · cases hs; exact .leave rfl hc
    · cases hs; exact .enter rfl hc .wait

theorem GoesOn.execFinish {old : Option Nat} (hc : k.cpuProc = some c)
    (hs : Thread.execFinish k c old = .ok k') : GoesOn k e k' q := by
  obtain ⟨k₂, hk₂, hs⟩ := bind_eq_ok.mp hs
  obtain ⟨k₁, hk₁, hk₂⟩ := bind_eq_ok.mp hk₂
  cases hk₂
  obtain ⟨d, _, rfl⟩ := freevm_ok hs
  refine .after k₁ (callKept_freeThreads (.inl rfl) hk₁) hc rfl fun hq hu => ?_
  simp only [proc_setWalk, ret_other hq, setProc_other hq]
  exact hu

theorem GoesOn.execCommit {d sz : Nat} (hc : k.cpuProc = some c)
    (hs : Thread.execCommit k c d sz = .ok k') : GoesOn k (.execCommit d sz) k' q := by
  rw [Thread.execCommit] at hs
  split at hs
  · cases hs
  · obtain ⟨k₁, hk₁, hs⟩ := bind_eq_ok.mp hs
    obtain ⟨_, rfl⟩ := newDir_ok hk₁
    obtain ⟨m, _, hs⟩ := bind_eq_ok.mp hs
    split at hs
    · cases hs; exact .leave rfl hc
    · cases hs; exact .enter rfl hc (.exec d sz)

theorem GoesOn.sbrkGrow {addr : Nat} {n : Int} {ok : Bool} (hc : k.cpuProc = some c)
    (hs : Thread.sbrkGrow k c addr n ok = .ok k') : GoesOn k e k' q := by
  obtain ⟨r, hr, hs⟩ := bind_eq_ok.mp hs
  rcases growproc_ok hr with rfl | ⟨m, sz, xs, _, _, _, rfl⟩
  · cases hs; exact .leave rfl hc
  · cases hs
    refine .leave ?_ hc
    show Function.update (setSz k sz xs).call c .user = _
    rw [call_setSz]

/-- The list of the places to which calls go on is complete. -/
theorem step_call (hs : step k e = .ok k') (q : Slot) : GoesOn k e k' q := by
  rw [step] at hs
  split at hs
  · cases hs
  cases e with
  | forkAlloc ok =>
    obtain ⟨c, hc, _, hs⟩ := byUser_ok hs
    cases hs
    exact .allocproc hc fun p hp => .fork ok p hp
  | forkCopy dir =>
    obtain ⟨c, hc, hs⟩ := byProc_ok hs
    split at hs
    · rename_i np hcall
      cases dir with
      | none => cases hs; exact .leave rfl hc
      | some d =>
        obtain ⟨k₁, hk₁, hs⟩ := bind_eq_ok.mp hs
        obtain ⟨_, rfl⟩ := newDir_ok hk₁
        obtain ⟨m, _, hs⟩ := bind_eq_ok.mp hs
        cases hs
        exact .enter rfl hc (.forkCopied _ np hcall)
    · cases hs
  | forkRun =>
    obtain ⟨c, hc, hs⟩ := byProc_ok hs
    split at hs
    · cases hs; exact .leave rfl hc
    · cases hs
  | createAlloc ok =>
    obtain ⟨c, hc, _, hs⟩ := byUser_ok hs
    obtain ⟨m, hm, hs⟩ := bind_eq_ok.mp hs
    cases hs
    exact .allocproc hc fun p hp => .create ok m p (deref_ok hm) hp
  | createFinish ok =>
    obtain ⟨c, hc, hs⟩ := byProc_ok hs
    split at hs
    · exact .createFinish hc hs
    · cases hs
  | exitBegin =>
    obtain ⟨c, hc, _, hs⟩ := byUser_ok hs
    exact .exitBegin hc hs (.exit _ (.inl rfl))
  | threadExitBegin r =>
    obtain ⟨c, hc, _, hs⟩ := byUser_ok hs
    rw [threadExitBegin] at hs
    split at hs
    · exact .exitBegin hc hs (.exit _ (.inr ⟨r, rfl⟩))
    · cases hs; exact .enter rfl hc (.threadExit r)
  | closeFiles =>
    obtain ⟨c, _, hs⟩ := byProc_ok hs
    exact .same (call_closeFiles hs)
  | exit =>
    obtain ⟨c, hc, hs⟩ := byProc_ok hs
    split at hs
    · exact .exit hc hs
    · cases hs
  | threadExit =>
    obtain ⟨c, hc, hs⟩ := byProc_ok hs
    split at hs
    · split at hs
      · cases hs
        refine .leave ?_ hc
        show Function.update (reparent (wakeup1 k _) c).call c .user = _
        rw [call_reparent]
        rfl
      · cases hs
    · cases hs
  | wait =>
    obtain ⟨c, hc, hs⟩ := byProc_ok hs
    split at hs
    · exact .wait hc hs
    · cases hs
  | threadJoin tid =>
    obtain ⟨c, hc, _, hs⟩ := byUser_ok hs
    obtain ⟨m, _, hs⟩ := bind_eq_ok.mp hs
    split at hs
    · cases hs
    · cases hs; exact .leave rfl hc
    · exact .joinCheck hc hs (.join _ m _ rfl)
  | joinCheck =>
    obtain ⟨c, hc, hs⟩ := byProc_ok hs
    split at hs
    · exact .joinCheck hc hs (.join _ _ _ rfl)
    · cases hs
  | execCommit d sz =>
    obtain ⟨c, hc, _, hs⟩ := byUser_ok hs
    exact .execCommit hc hs
  | execFinish =>
    obtain ⟨c, hc, hs⟩ := byProc_ok hs
    split at hs
    · split at hs
      · exact .execFinish hc hs
      · cases hs
    · cases hs
  | sbrk n =>
    obtain ⟨c, hc, _, hs⟩ := byUser_ok hs
    rw [sbrk] at hs
    split at hs
    · rename_i hn
      cases hs
      exact .enter rfl hc (.sbrk n hn.1 hn.2)
    · cases hs
  | growproc ok =>
    obtain ⟨c, hc, hs⟩ := byProc_ok hs
    split at hs
    · exact .sbrkGrow hc hs
    · cases hs
  | setmemorylimit pid limit =>
    obtain ⟨c, hc, _, hs⟩ := byUser_ok hs
    obtain ⟨r, hr, hs⟩ := bind_eq_ok.mp hs
    rcases setmemorylimit_ok hr with rfl | ⟨p, m, _, _, _, _, _, _, rfl⟩
    · cases hs; exact .leave rfl hc
    · cases hs; exact .leave rfl hc
  | kill pid =>
    obtain ⟨c, hc, _, hs⟩ := byUser_ok hs
    cases hs
    rw [kill]
    split <;> exact .leave rfl hc
  | fdalloc f =>
    obtain ⟨c, hc, _, hs⟩ := byUser_ok hs
    cases hs
    rw [fdalloc]
    split <;> exact .leave rfl hc
  | close fd =>
    obtain ⟨c, hc, _, hs⟩ := byUser_ok hs
    cases hs
    rw [close]
    split <;> exact .leave rfl hc
  | chdir ip =>
    obtain ⟨c, hc, _, hs⟩ := byUser_ok hs
    cases hs
    exact .leave rfl hc
  | sleep chan =>
    obtain ⟨c, _, hs⟩ := byProc_ok hs
    split at hs
    · cases hs
    · cases hs; exact .same rfl
  | yield =>
    obtain ⟨c, _, hs⟩ := byProc_ok hs
    cases hs
    exact .same rfl
  | wakeup chan =>
    cases hs
    exact .same rfl
  | schedule => exact .same (call_schedule hs)

end Xv6.Thread
