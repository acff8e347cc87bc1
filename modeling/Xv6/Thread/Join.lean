import Xv6.Thread.Change
import Xv6.Thread.Fields
import Xv6.Thread.Sleep

namespace Xv6.Thread

open Xv6.Lib

/-!
# Threads — the order in which threads are joined

`thread_join` takes the thread out of the list of its process with two different pieces of code:
one for the first thread behind the main thread, and a loop for the others, which does not unlink
the thread and cuts off those behind it.  A run of the machine is extended with the values that
threads have passed to `thread_exit`, and with the threads that were joined in each process:

* `join_returns` — if every thread that is released is the first one of its list at that moment,
  every `thread_join` returns 0 and the value of the thread, takes exactly that thread out of the
  list, and a second one returns -1;
* `join_second_thread` — a run in which the second thread is joined before the first one.
-/

/-- The machine, the values that the threads in the slots have passed to `thread_exit`, and the
    threads that were joined in the process of each main thread. -/
structure JoinRun where
  kernel : Kernel
  passed : Slot → Option Nat
  joined : Slot → List Nat

/-- Set the value of a slot, if there is one. -/
def setAt {α : Type} (f : Slot → α) (p : Option Slot) (a : α) : Slot → α :=
  fun q => if p = some q then a else f q

/-- The values passed to `thread_exit`; a new thread has passed none. -/
def notePassed (s : JoinRun) : Step → Slot → Option Nat
  | .threadExitBegin r => setAt s.passed s.kernel.cpuProc (some r)
  | .forkAlloc _ | .createAlloc _ => setAt s.passed (firstUnused s.kernel) none
  | _ => s.passed

/-- The thread that `c` joins with a step. -/
def joinTid (k : Kernel) (c : Slot) : Step → Option Nat
  | .threadJoin tid => some tid
  | .joinCheck =>
    match k.call c with
    | .join _ p => some (k.proc p).tid
    | _ => none
  | _ => none

/-- The thread that a `thread_join` that returns 0 has joined, with its main thread. -/
def joinedBy (k : Kernel) (e : Step) (k' : Kernel) : Option (Slot × Nat) := do
  let c ← k.cpuProc
  let m ← (k.proc c).mainThread
  let tid ← joinTid k c e
  if k'.call c = .user ∧ (k'.proc c).eax = 0 then some (m, tid) else none

/-- The threads that were joined; a new process and `exec` begin anew. -/
def noteJoined (s : JoinRun) (e : Step) (k' : Kernel) : Slot → List Nat :=
  match e with
  | .forkAlloc _ | .createAlloc _ => setAt s.joined (firstUnused s.kernel) []
  | .execFinish => setAt s.joined s.kernel.cpuProc []
  | e =>
    match joinedBy s.kernel e k' with
    | some (m, tid) => Function.update s.joined m (tid :: s.joined m)
    | none => s.joined

/-- One step of the machine, with what it adds to the history. -/
def joinStep (s : JoinRun) (e : Step) : Except Stop JoinRun := do
  let k' ← step s.kernel e
  .ok ⟨k', notePassed s e, noteJoined s e k'⟩

/-- The start of a run. -/
def JoinInit (s : JoinRun) : Prop :=
  Init s.kernel ∧ s.passed = (fun _ => none) ∧ s.joined = fun _ => []

/-- `thread_join` by `c` of the thread `p` of the process of `m` has led to `k'` and returns 0 and
    the value that `p` has passed to `thread_exit`; the list has lost `p` and nothing else, has no
    unused slot, and contains the thread that runs next. -/
structure Joined (s : JoinRun) (c m p : Slot) (k' : Kernel) : Prop where
  user : k'.call c = .user
  ret : (k'.proc c).eax = 0
  val : s.passed p = some (k'.proc c).joinVal
  list : ∃ xs, Chain s.kernel.next (some m) xs ∧ p ∈ xs ∧ Chain k'.next (some m) (xs.erase p) ∧
    (∀ q ∈ xs.erase p, (k'.proc q).state ≠ .UNUSED) ∧
    ∃ t ∈ xs.erase p, (k'.proc m).currentThread = some t

/-- The process `c` waits inside `thread_join` for the thread `p`. -/
def Waits (c m p : Slot) (k' : Kernel) : Prop :=
  k'.call c = .join m p ∧ (k'.proc c).state = .SLEEPING ∧ (k'.proc c).chan = some (.proc c)

variable {D W : Prop} {k k' : Kernel} {c m p q t : Slot} {e : Step}

/-! ### One `thread_join` -/

/-- A `thread_join` of a thread that is a zombie only as the first one of the list: it waits, or
    the thread is taken out of the list. -/
theorem KernelInv.joinCheck_eq (h : KernelInv D W k) (hc : k.cpuProc = some c)
    (hp : Member k.view m p) (hpm : p ≠ m) (hfirst : FirstIfZombie k m p) :
    ((k.proc p).state ≠ .ZOMBIE ∧
      Thread.joinCheck k c m p = .ok (Thread.sleep (k.setCall c (.join m p)) c (.proc c))) ∨
    ((k.proc p).state = .ZOMBIE ∧ p ≠ c ∧
      Thread.joinCheck k c m p = .ok ((freeThread (unlinked k c m p) p).ret c 0)) := by
  by_cases hz : (k.proc p).state = .ZOMBIE
  · have hact := h.cpu c hc
    have hpc : p ≠ c := fun hpc => by
      subst hpc
      simp [Kernel.view, Proc.view, hz, ProcState.life] at hact
    exact .inr ⟨hz, hpc, joinCheck_first hz (hfirst hz) hp.2 hpm hpc⟩
  · refine .inl ⟨hz, ?_⟩
    rw [Thread.joinCheck, if_pos hz]

theorem waits_sleep : Waits c m p (sleep (k.setCall c (.join m p)) c (.proc c)) := by
  refine ⟨Function.update_self .., ?_, ?_⟩
  · rw [sleep, setProc_self]
  · rw [sleep, setProc_self]

/-- The list of the threads of a process. -/
theorem KernelInv.thread_list (h : KernelInv D W k) (hm : Runs k.view m m) :
    ∃ ys, Chain k.next (some m) (m :: ys) ∧ Chain k.next (k.next m) ys ∧ ys.length ≤ NPROC ∧
      ∀ q, q ∈ m :: ys ↔ Member k.view m q := by
  obtain ⟨xs, hxs, hx⟩ := (h.inv.groups m).list ⟨.inl hm.1, hm.2⟩ hm.1
  obtain ⟨ys, rfl, hys⟩ := chain_some_iff.mp hxs
  exact ⟨ys, hxs, hys, by simpa using hys.length_le, hx⟩

/-- The thread of a process with a given number, found by `thread_join`. -/
theorem KernelInv.find_thread (h : KernelInv D W k) (hm : Runs k.view m m) {P : Slot → Bool}
    (hmem : ∀ q, Member k.view m q → q ≠ m → P q = true → q = p)
    (hp : Member k.view m p) (hpm : p ≠ m) (hP : P p = true) :
    walkFind k.next P NPROC (k.proc m).nextThread = some (some p) := by
  obtain ⟨ys, hxs, hys, hlen, hx⟩ := h.thread_list hm
  have hnd := hxs.nodup
  have hpy : p ∈ ys := by
    have := (hx p).mpr hp
    simpa [hpm] using this
  show walkFind k.next P NPROC (k.next m) = _
  rw [walkFind_eq hys hlen]
  cases hfind : ys.find? P with
  | none => exact absurd hP (List.find?_eq_none.mp hfind p hpy)
  | some q =>
    have hqy := List.mem_of_find?_eq_some hfind
    have hqm : q ≠ m := fun hqm => (List.nodup_cons.mp hnd).1 (hqm ▸ hqy)
    rw [hmem q ((hx q).mp (by simp [hqy])) hqm (List.find?_some hfind)]

/-- There is no thread with the given number. -/
theorem KernelInv.find_no_thread (h : KernelInv D W k) (hm : Runs k.view m m) {P : Slot → Bool}
    (hmem : ∀ q, Member k.view m q → P q = false) :
    walkFind k.next P NPROC (k.proc m).nextThread = some none := by
  obtain ⟨ys, _, hys, hlen, hx⟩ := h.thread_list hm
  show walkFind k.next P NPROC (k.next m) = _
  rw [walkFind_eq hys hlen]
  congr 1
  refine List.find?_eq_none.mpr fun q hq => ?_
  rw [hmem q ((hx q).mp (by simp [hq]))]
  simp

/-- What a step of `thread_join` does: nothing to the threads and their fields, or the thread `p`
    is taken out of the list. -/
def JoinOutcome (k : Kernel) (e : Step) (k' : Kernel) : Prop :=
  ∃ c m, k.cpuProc = some c ∧ Runs k.view m c ∧
    ((k'.view = k.view ∧ k'.kept = k.kept ∧ ¬ (k'.call c = .user ∧ (k'.proc c).eax = 0)) ∨
    ∃ p, joinTid k c e = some (k.proc p).tid ∧ Member k.view m p ∧ p ≠ m ∧ p ≠ c ∧
      (k.proc p).state = .ZOMBIE ∧ (k.proc m).nextThread = some p ∧
      k' = (freeThread (unlinked k c m p) p).ret c 0)

theorem KernelInv.joinCheck_outcome (h : KernelInv D W k) (hc : k.cpuProc = some c)
    (hm : (k.view c).main = some m) (hp : Member k.view m p) (hpm : p ≠ m)
    (hfirst : FirstIfZombie k m p) (htid : joinTid k c e = some (k.proc p).tid)
    (hs : Thread.joinCheck k c m p = .ok k') : JoinOutcome k e k' := by
  refine ⟨c, m, hc, ⟨h.cpu c hc, hm⟩, ?_⟩
  rcases h.joinCheck_eq hc hp hpm hfirst with ⟨_, heq⟩ | ⟨hz, hpc, heq⟩
  · rw [heq] at hs
    cases hs
    refine .inl ⟨?_, ?_, fun hh => ?_⟩
    · exact view_sleep (k := k.setCall c (.join m p)) (h.cpu c hc) _
    · rw [kept_sleep, kept_setCall]
    · have := (waits_sleep (k := k) (c := c) (m := m) (p := p)).1
      rw [hh.1] at this
      cases this
  · rw [heq] at hs
    cases hs
    exact .inr ⟨p, htid, hp, hpm, hpc, hz, hfirst hz, rfl⟩

theorem KernelInv.step_join (h : KernelInv D W k) (he : KeepsGroups k e) (hj : e.joins = true)
    (hs : Thread.step k e = .ok k') : JoinOutcome k e k' := by
  rw [Thread.step] at hs
  split at hs
  · cases hs
  cases e with
  | threadJoin tid =>
    obtain ⟨c, hc, _, hs⟩ := byUser_ok hs
    obtain ⟨m, hm, hs⟩ := bind_eq_ok.mp hs
    have hm' : (k.view c).main = some m := deref_ok hm
    split at hs
    · cases hs
    · cases hs
      refine ⟨c, m, hc, ⟨h.cpu c hc, hm'⟩, .inl ⟨view_ret _, kept_ret _, fun hh => ?_⟩⟩
      have hret : ((k.ret c (-1)).proc c).eax = -1 := by
        rw [Kernel.ret, proc_setCall, setProc_self]
      rw [hret] at hh
      cases hh.2
    · rename_i p hp
      obtain ⟨hpm, hpn, _⟩ := h.found_member (h.cpu c hc) hm' hp
      have htid := (walkFind_some hp).2
      simp only [decide_eq_true_eq] at htid
      exact h.joinCheck_outcome hc hm' hpm hpn (he c hc m hm' p hp) (by rw [joinTid, htid.1]) hs
  | joinCheck =>
    obtain ⟨c, hc, hs⟩ := byProc_ok hs
    split at hs
    · rename_i m p hcall
      obtain ⟨hm, hp, hpm, _⟩ := h.inv.join_member hcall
      exact h.joinCheck_outcome hc hm hp hpm (he c hc m p hcall) (by simp [joinTid, hcall]) hs
    · cases hs
  | _ => cases hj

/-! ### The history -/

section History

variable {s : JoinRun}

theorem setAt_cases {α : Type} (f : Slot → α) (p : Option Slot) (a : α) (q : Slot) :
    setAt f p a q = f q ∨ (p = some q ∧ setAt f p a q = a) := by
  unfold setAt
  split
  · exact .inr ⟨‹_›, rfl⟩
  · exact .inl rfl

/-- The value of a thread changes when it calls `thread_exit`, or is new. -/
theorem notePassed_cases (s : JoinRun) (e : Step) (q : Slot) : notePassed s e q = s.passed q ∨
    (s.kernel.cpuProc = some q ∧ ∃ r, e = .threadExitBegin r ∧ notePassed s e q = some r) ∨
    firstUnused s.kernel = some q := by
  unfold notePassed
  split
  · rename_i r
    rcases setAt_cases s.passed s.kernel.cpuProc (some r) q with h | ⟨hc, h⟩
    · exact .inl h
    · exact .inr (.inl ⟨hc, r, rfl, h⟩)
  · rcases setAt_cases s.passed (firstUnused s.kernel) none q with h | ⟨hp, _⟩
    · exact .inl h
    · exact .inr (.inr hp)
  · rcases setAt_cases s.passed (firstUnused s.kernel) none q with h | ⟨hp, _⟩
    · exact .inl h
    · exact .inr (.inr hp)
  · exact .inl rfl

/-- Only a `thread_join` joins a thread. -/
theorem joinedBy_other (hj : e.joins = false) : joinedBy k e k' = none := by
  have hnone : ∀ c, joinTid k c e = none := fun c => by
    cases e with
    | threadJoin tid => cases hj
    | joinCheck => cases hj
    | _ => rfl
  simp [joinedBy, hnone]

/-- A step that is no `thread_join` adds no thread. -/
theorem noteJoined_cases (k' : Kernel) (hj : e.joins = false) (q : Slot) :
    noteJoined s e k' q = s.joined q ∨ noteJoined s e k' q = [] := by
  have hset : ∀ p, setAt s.joined p [] q = s.joined q ∨ setAt s.joined p [] q = [] := fun p => by
    rcases setAt_cases s.joined p [] q with h | ⟨_, h⟩
    · exact .inl h
    · exact .inr h
  unfold noteJoined
  split
  · exact hset _
  · exact hset _
  · exact hset _
  · rw [joinedBy_other hj]
    exact .inl rfl

/-- A new process begins without joined threads. -/
theorem noteJoined_alloc (he : e.allocates = true) (hp : firstUnused s.kernel = some p) :
    noteJoined s e k' p = [] := by
  cases e with
  | forkAlloc ok => exact if_pos hp
  | createAlloc ok => exact if_pos hp
  | _ => cases he

/-- So does the process that `exec` leaves. -/
theorem noteJoined_exec (hc : s.kernel.cpuProc = some c) :
    noteJoined s .execFinish k' c = [] := if_pos hc

/-- What a `thread_join` adds. -/
theorem noteJoined_joins (hj : e.joins = true) : noteJoined s e k' =
    match joinedBy s.kernel e k' with
    | some (m, tid) => Function.update s.joined m (tid :: s.joined m)
    | none => s.joined := by
  cases e with
  | threadJoin t => rfl
  | joinCheck => rfl
  | _ => cases hj

end History

/-! ### The invariant -/

/-- The invariant of a run with its history. -/
structure JoinInv (s : JoinRun) : Prop where
  kernel : KernelInv False False s.kernel
  passing : ∀ c r, s.kernel.call c = .threadExit r → s.passed c = some r
  values : ∀ m q, Runs s.kernel.view m m → Member s.kernel.view m q → q ≠ m →
    (s.kernel.view q).life = .zombie → s.passed q = some (s.kernel.proc q).retval
  newCurrent : ∀ m, (s.kernel.view m).life = .embryo → (s.kernel.proc m).currentThread = some m
  current : ∀ m, Runs s.kernel.view m m →
    ∃ t, (s.kernel.proc m).currentThread = some t ∧ Member s.kernel.view m t
  newJoined : ∀ m, (s.kernel.view m).life = .embryo → s.joined m = []
  joined : ∀ m, Runs s.kernel.view m m → ∀ tid ∈ s.joined m,
    tid ≤ (s.kernel.view m).createNum ∧ ∀ q, Member s.kernel.view m q → (s.kernel.view q).tid ≠ tid
  awake : ∀ c m p, s.kernel.call c = .join m p → (s.kernel.proc c).state = .SLEEPING →
    (s.kernel.proc c).chan = some (.proc c) ∧ (s.kernel.proc p).state ≠ .ZOMBIE

/-- A thread that is released, but not as a zombie by `thread_join`, takes its main thread with it,
    or is released by its `exec`. -/
theorem Change.freed_main {v' : Slot → View} (h : Change k e v')
    (hj : e.joins = false ∨ (k.view t).life = .active) (hm : Runs k.view m m) (ht : Member k.view m t)
    (hfree : (v' t).life = .unused) (hm' : Runs v' m m) :
    k.cpuProc = some m ∧ e = .execFinish := by
  have hsame : v' t = k.view t → k.cpuProc = some m ∧ e = .execFinish := fun heq => by
    rw [heq] at hfree
    exact absurd ht.1 (not_live_of_unused hfree)
  have hgroup : ∀ {m' : Slot}, Member k.view m' t → m' = m := fun hh =>
    Option.some.inj (hh.2.symm.trans ht.2)
  have hmm : Member k.view m m := ⟨.inl hm.1, hm.2⟩
  cases h with
  | same heq => exact hsame (by rw [heq])
  | dead p hp _ _ hrest => exact hsame (hrest t fun htp => hp (htp ▸ ht.1))
  | started c np _ hnew heq =>
    have htn : t ≠ np := fun htn => not_live_of_embryo hnew.life (htn ▸ ht.1)
    exact hsame (by rw [heq, Function.update_of_ne htn])
  | refused c m' np _ _ hnp _ hrest =>
    have htn : t ≠ np := fun htn => not_live_of_embryo hnp (htn ▸ ht.1)
    rw [hrest t htn] at hfree
    exact absurd ht.1 (not_live_of_unused hfree)
  | created c m' np z _ _ hnp _ _ hrest =>
    have htn : t ≠ np := fun htn => not_live_of_embryo hnp (htn ▸ ht.1)
    rw [hrest t htn] at hfree
    exact absurd ht.1 (not_live_of_unused hfree)
  | ended c m' _ hc _ hf hself hrest =>
    by_cases htm : Member k.view m' t
    · obtain rfl := hgroup htm
      by_cases hmc : m' = c
      · rw [Runs, hmc, hself] at hm'
        cases hm'.1
      · rw [Runs, hf m' hmm hmc] at hm'
        cases hm'.1
    · exact hsame (hrest t htm)
  | stopped c m' _ _ _ _ heq =>
    by_cases htc : t = c
    · subst htc
      rw [heq, Function.update_self] at hfree
      cases hfree
    · exact hsame (by rw [heq, Function.update_of_ne htc])
  | committed c d sz _ _ heq =>
    by_cases htc : t = c
    · subst htc
      rw [heq, Function.update_self] at hfree
      exact absurd ht.1 (not_live_of_unused hfree)
    · exact hsame (by rw [heq, Function.update_of_ne htc])
  | replaced c m' he hc _ hf hself hrest =>
    by_cases htm : Member k.view m' t
    · obtain rfl := hgroup htm
      by_cases hmc : m' = c
      · exact ⟨hmc ▸ hc, he⟩
      · rw [Runs, hf m' hmm hmc] at hm'
        cases hm'.1
    · exact hsame (hrest t htm)
  | reaped c m' p _ _ hz hmain hlast heq =>
    by_cases htp : t = p
    · subst htp
      have hmt : m' = m := Option.some.inj (hmain.symm.trans ht.2)
      subst hmt
      have := hlast m' hmm
      rw [this] at hm
      rw [hm.1] at hz
      cases hz
    · exact hsame (by rw [heq, Function.update_of_ne htp])
  | joined c m' p he _ _ _ _ hz _ _ heq =>
    rcases hj with hj | hact
    · rw [hj] at he; cases he
    · have htp : t ≠ p := fun htp => by rw [← htp, hact] at hz; cases hz
      rw [heq, Function.update_of_ne htp] at hfree
      by_cases htm : t = m'
      · subst htm
        rw [Function.update_self] at hfree
        exact absurd ht.1 (not_live_of_unused hfree)
      · rw [Function.update_of_ne htm] at hfree
        exact absurd ht.1 (not_live_of_unused hfree)

/-! ### Steps -/

/-- The value that a thread has stored changes with its `thread_exit`. -/
theorem Resets.retval (h : Resets k e k') (q : Slot) :
    (k'.proc q).retval = (k.proc q).retval ∨ (k.cpuProc = some q ∧ e = .threadExit) := by
  have hset : ∀ {p : Slot} {w : Kept}, k'.kept = Function.update k.kept p w →
      w.retval = (k.kept p).retval → (k'.proc q).retval = (k.proc q).retval := fun heq hw =>
    kept_of_update Kept.retval heq fun _ => hw
  have hall : ∀ {S : Slot → Prop} {sz : Nat}, SetsSz k k' S sz →
      (k'.proc q).retval = (k.proc q).retval := fun hS => hS.other Kept.retval (fun _ _ => rfl) q
  cases h with
  | same heq => exact .inl (congrArg Kept.retval (congrFun heq q))
  | allocated p _ heq => exact .inl (hset heq rfl)
  | forked c m np _ _ _ heq => exact .inl (hset heq rfl)
  | created c m np ok _ _ _ _ _ hS => exact .inl (hall hS)
  | leaked c m np ok _ _ _ _ hS => exact .inl (hall hS)
  | stopped c r he hc _ heq =>
    by_cases hq : q = c
    · subst hq; exact .inr ⟨hc, he⟩
    · exact .inl (kept_of_update Kept.retval heq fun hh => absurd hh hq)
  | joined c m p _ _ _ _ _ _ heq => exact .inl (hset heq rfl)
  | committed c d sz _ _ _ heq => exact .inl (hset heq rfl)
  | replaced c _ _ heq => exact .inl (hset heq rfl)
  | grown c m addr n ok sz _ _ _ _ _ hS => exact .inl (hall hS)
  | limited p m pid limit _ _ _ _ _ heq => exact .inl (hset heq rfl)
  | scheduled p m cur t _ _ _ _ heq => exact .inl (hset heq rfl)

/-- The thread that runs next changes in a new slot, at the end of `exec`, when the scheduler has
    chosen one, and in `thread_join`. -/
theorem Resets.current (h : Resets k e k') (hj : e.joins = false) (q : Slot) :
    (k'.proc q).currentThread = (k.proc q).currentThread ∨ firstUnused k = some q ∨
    (k.cpuProc = some q ∧ e = .execFinish) ∨
    ∃ p cur t, (k.proc p).state = .RUNNABLE ∧ (k.proc p).mainThread = some q ∧
      (k.proc q).currentThread = some cur ∧ pickThread k q NPROC cur = some t ∧
      (k'.proc q).currentThread = some t := by
  have hset : ∀ {p : Slot} {w : Kept}, k'.kept = Function.update k.kept p w →
      (q = p → w.currentThread = (k.kept p).currentThread) →
      (k'.proc q).currentThread = (k.proc q).currentThread := fun heq hw =>
    kept_of_update Kept.currentThread heq hw
  have hall : ∀ {S : Slot → Prop} {sz : Nat}, SetsSz k k' S sz →
      (k'.proc q).currentThread = (k.proc q).currentThread := fun hS =>
    hS.other Kept.currentThread (fun _ _ => rfl) q
  cases h with
  | same heq => exact .inl (congrArg Kept.currentThread (congrFun heq q))
  | allocated p hp heq =>
    by_cases hq : q = p
    · subst hq; exact .inr (.inl hp)
    · exact .inl (hset heq fun hh => absurd hh hq)
  | forked c m np _ _ _ heq => exact .inl (hset heq fun _ => rfl)
  | created c m np ok _ _ _ _ _ hS => exact .inl (hall hS)
  | leaked c m np ok _ _ _ _ hS => exact .inl (hall hS)
  | stopped c r _ _ _ heq => exact .inl (hset heq fun _ => rfl)
  | joined c m p he => rw [hj] at he; cases he
  | committed c d sz _ _ _ heq => exact .inl (hset heq fun _ => rfl)
  | replaced c he hc heq =>
    by_cases hq : q = c
    · subst hq; exact .inr (.inr (.inl ⟨hc, he⟩))
    · exact .inl (hset heq fun hh => absurd hh hq)
  | grown c m addr n ok sz _ _ _ _ _ hS => exact .inl (hall hS)
  | limited p m pid limit _ _ _ _ _ heq => exact .inl (hset heq fun _ => rfl)
  | scheduled p m cur t hp hm hcur ht heq =>
    by_cases hq : q = m
    · subst hq
      have hself := congrArg Kept.currentThread (congrFun heq q)
      rw [Function.update_self] at hself
      exact .inr (.inr (.inr ⟨p, cur, t, hp, hm, hcur, ht, hself⟩))
    · exact .inl (hset heq fun hh => absurd hh hq)

/-- The scheduler chooses a thread of the process. -/
theorem KernelInv.pick_member (h : KernelInv D W k) (hm : Runs k.view m m) {n : Nat} {cur : Slot}
    (hcur : Member k.view m cur) (ht : pickThread k m n cur = some t) : Member k.view m t := by
  obtain ⟨ys, hxs, _, _, hx⟩ := h.thread_list hm
  induction n generalizing cur with
  | zero => cases ht
  | succ n ih =>
    have hnext : Member k.view m ((k.proc cur).nextThread.getD m) := by
      cases hn : (k.proc cur).nextThread with
      | none => exact ⟨.inl hm.1, hm.2⟩
      | some b =>
        refine (hx b).mp (hxs.linked_iff.mp (Linked.step (hxs.linked_iff.mpr ?_) hn))
        exact (hx cur).mpr hcur
    rw [pickThread] at ht
    split at ht
    · cases ht; exact hnext
    · exact ih hnext ht

/-- `allocproc` sets the thread that runs next in the slot that it takes. -/
theorem current_alloc (he : e.allocates = true) (hp : firstUnused k = some p)
    (hs : step k e = .ok k') : (k'.proc p).currentThread = some p := by
  have hset : ∀ {next : Slot → Call} {c : Slot} {ok : Bool},
      ((allocproc k c next ok).proc p).currentThread = some p := fun {next c ok} => by
    have heq : (allocproc k c next ok).kept = _ := kept_allocproc hp
    have hself := congrArg Kept.currentThread (congrFun heq p)
    rwa [Function.update_self] at hself
  rw [step] at hs
  split at hs
  · cases hs
  cases e with
  | forkAlloc ok =>
    obtain ⟨c, _, _, hs⟩ := byUser_ok hs
    cases hs
    exact hset
  | createAlloc ok =>
    obtain ⟨c, _, _, hs⟩ := byUser_ok hs
    obtain ⟨m, _, hs⟩ := bind_eq_ok.mp hs
    cases hs
    exact hset
  | _ => cases he

/-- The caller of `exec` runs next. -/
theorem current_exec (hc : k.cpuProc = some c) (hs : step k .execFinish = .ok k') :
    (k'.proc c).currentThread = some c := by
  rw [step] at hs
  split at hs
  · cases hs
  obtain ⟨c', hc', hs⟩ := byProc_ok hs
  cases hc.symm.trans hc'
  split at hs
  · split at hs
    · have := congrArg Kept.currentThread (congrFun (kept_execFinish hs) c)
      rwa [Function.update_self] at this
    · cases hs
  · cases hs

section Preservation

variable {s : JoinRun}

theorem unused_of_first (hp : firstUnused k = some p) (hq : Live k.view p) : False :=
  not_live_of_unused (firstUnused_spec hp) hq

/-- The threads inside `thread_exit` have passed their values. -/
theorem JoinInv.passing_step (h : JoinInv s) (hs : step s.kernel e = .ok k') (c : Slot) (r : Nat)
    (hc : k'.call c = .threadExit r) : notePassed s e c = some r := by
  rcases step_call hs c with (hsame | ⟨huser, _⟩) | ⟨hcpu, huser | henter⟩
  · rw [hsame] at hc
    have hact : Live s.kernel.view c := .inl (h.kernel.inv.inCall c (by rw [hc]; simp))
    rcases notePassed_cases s e c with heq | ⟨hcpu, r', rfl, _⟩ | hp
    · rw [heq]
      exact h.passing c r hc
    · -- the call begins in user mode
      rw [step] at hs
      split at hs
      · cases hs
      obtain ⟨c', hc', hu, _⟩ := byUser_ok hs
      cases hcpu.symm.trans hc'
      rw [hc] at hu
      cases hu
    · exact (unused_of_first hp hact).elim
  · rw [huser] at hc; cases hc
  · rw [huser] at hc; cases hc
  · rw [hc] at henter
    cases henter with
    | threadExit => exact if_pos hcpu

/-- A main thread after a step was one before, or is the child of a `fork`, or the caller of
    `exec`. -/
theorem KernelInv.main_before (h : KernelInv D W k) (hch : Change k e k'.view)
    (hm : Runs k'.view m m) : Runs k.view m m ∨ NewProc k.view m ∨
      (k.cpuProc = some m ∧ e = .execFinish) := by
  cases hch.slot h m with
  | stays hlife hmain =>
    refine .inl ?_
    rw [Runs, ← hlife, ← hmain]
    exact hm
  | dead _ hq' => exact absurd (.inl hm.1) hq'
  | freed _ hq' => exact absurd (.inl hm.1) (not_live_of_unused hq')
  | ended _ _ heq => rw [Runs, heq] at hm; cases hm.1
  | started hnew _ => exact .inr (.inl hnew)
  | created c m' _ hm' hq heq =>
    have hmm : m' = m := Option.some.inj (by rw [← hm.2, heq])
    subst hmm
    obtain ⟨_, hlead, _⟩ := h.inv.leader_of_active hm'.1 hm'.2
    exact absurd hlead.1 (not_live_of_embryo hq)
  | replaced hc he => exact .inr (.inr ⟨hc, he⟩)

/-- A new process has no other threads. -/
theorem KernelInv.new_alone (h : KernelInv D W k) (hnew : NewProc k.view m) :
    ¬ Member k.view m q :=
  h.inv.no_members (by rw [hnew.life]; simp) (.inr hnew.life)

/-- The zombies among the threads of a process have passed their values. -/
theorem JoinInv.values_step (h : JoinInv s) (he : KeepsGroups s.kernel e)
    (hs : step s.kernel e = .ok k') (hm : Runs k'.view m m)
    (hq : Member k'.view m q) (hqm : q ≠ m) (hz : (k'.view q).life = .zombie) :
    notePassed s e q = some (k'.proc q).retval := by
  have hch := h.kernel.step_change he hs
  cases hch.slot h.kernel q with
  | stays hlife hmain =>
    have hz' : (s.kernel.view q).life = .zombie := hlife ▸ hz
    have hq' : Member s.kernel.view m q := ⟨.inr hz', hmain ▸ hq.2⟩
    have hncpu : s.kernel.cpuProc ≠ some q := fun hc => by
      rw [h.kernel.cpu q hc] at hz'
      cases hz'
    have hm' : Runs s.kernel.view m m := by
      rcases h.kernel.main_before hch hm with hm' | hnew | ⟨hc, _⟩
      · exact hm'
      · exact absurd hq' (h.kernel.new_alone hnew)
      · -- a process with a zombie thread is led by its main thread
        refine ⟨h.kernel.cpu m hc, ?_⟩
        by_contra hne
        exact h.kernel.inv.no_members (by rw [h.kernel.cpu m hc]; simp) (.inl hne) hq'
    have hret : (k'.proc q).retval = (s.kernel.proc q).retval := by
      rcases (h.kernel.step_kept he hs).retval q with hr | ⟨hc, _⟩
      · exact hr
      · exact absurd hc hncpu
    rw [hret, ← h.values m q hm' hq' hqm hz']
    rcases notePassed_cases s e q with heq | ⟨hc, _⟩ | hp
    · exact heq
    · exact absurd hc hncpu
    · exact (unused_of_first hp hq'.1).elim
  | dead _ hq' => exact absurd hq.1 hq'
  | freed _ hq' => exact absurd hq.1 (not_live_of_unused hq')
  | ended hc hee heq hrel =>
    have hqm' : (s.kernel.view q).main = some m := by rw [← hq.2, heq]
    have hact := h.kernel.cpu q hc
    rcases hee with rfl | rfl
    · -- `exit` takes the main thread with it
      obtain ⟨_, hlead, _⟩ := h.kernel.inv.leader_of_active hact hqm'
      have := hrel rfl m m ⟨hact, hqm'⟩ hlead hqm.symm
      rw [hm.1] at this
      cases this
    · obtain ⟨c, r, hc', hcall, heq⟩ := kept_threadExit hs
      cases hc.symm.trans hc'
      have hself := congrArg Kept.retval (congrFun heq q)
      rw [Function.update_self] at hself
      rw [show (k'.proc q).retval = r from hself]
      exact h.passing q r hcall
  | started _ heq => rw [heq] at hz; cases hz
  | created _ _ _ _ _ heq => rw [heq] at hz; cases hz
  | replaced hc _ heq => rw [heq] at hz; rw [h.kernel.cpu q hc] at hz; cases hz

/-- A new slot after a step was one before, or is taken by the step. -/
theorem KernelInv.embryo_before (h : KernelInv D W k) (hch : Change k e k'.view)
    (hq : (k'.view q).life = .embryo) :
    (k.view q).life = .embryo ∨ (e.allocates = true ∧ firstUnused k = some q) := by
  cases hch.slot h q with
  | stays hlife => exact .inl (hlife ▸ hq)
  | dead _ _ hnew =>
    rcases hnew hq with ⟨hold, _⟩ | ⟨halloc, hp, _⟩ | ⟨hold, _⟩
    · exact .inl hold
    · exact .inr ⟨halloc, hp⟩
    · exact .inl hold
  | freed _ hq' => rw [hq] at hq'; cases hq'
  | ended _ _ heq => rw [heq] at hq; cases hq
  | started _ heq => rw [heq] at hq; cases hq
  | created _ _ _ _ _ heq => rw [heq] at hq; cases hq
  | replaced hc _ heq => rw [heq, h.cpu q hc] at hq; cases hq

/-- The thread that runs next in a new process is the process itself. -/
theorem JoinInv.newCurrent_step (h : JoinInv s) (he : KeepsGroups s.kernel e)
    (hj : e.joins = false) (hs : step s.kernel e = .ok k')
    (hm : (k'.view m).life = .embryo) : (k'.proc m).currentThread = some m := by
  rcases h.kernel.embryo_before (h.kernel.step_change he hs) hm with hm' | ⟨halloc, hp⟩
  · rcases (h.kernel.step_kept he hs).current hj m with hsame | hp | ⟨hc, _⟩ | ⟨p, _, _, hp, hpm, _⟩
    · rw [hsame]
      exact h.newCurrent m hm'
    · rw [firstUnused_spec hp] at hm'; cases hm'
    · rw [h.kernel.cpu m hc] at hm'; cases hm'
    · have hmem : Member s.kernel.view m p :=
        ⟨.inl (by simp [Kernel.view, Proc.view, hp, ProcState.life]), hpm⟩
      exact absurd hmem (h.kernel.inv.no_members (by rw [hm']; simp) (.inr hm'))
  · exact current_alloc halloc hp hs

/-- The thread that runs next is a thread of the process. -/
theorem JoinInv.current_step (h : JoinInv s) (he : KeepsGroups s.kernel e)
    (hj : e.joins = false) (hs : step s.kernel e = .ok k')
    (hm : Runs k'.view m m) :
    ∃ t, (k'.proc m).currentThread = some t ∧ Member k'.view m t := by
  have hch := h.kernel.step_change he hs
  by_cases hexec : s.kernel.cpuProc = some m ∧ e = .execFinish
  · obtain ⟨hc, rfl⟩ := hexec
    exact ⟨m, current_exec hc hs, .inl hm.1, hm.2⟩
  rcases h.kernel.main_before hch hm with hm' | hnew | hexec'
  · obtain ⟨t₀, ht₀, hmem₀⟩ := h.current m hm'
    -- the scheduler may have chosen another thread
    obtain ⟨t, ht, hmem⟩ : ∃ t, (k'.proc m).currentThread = some t ∧
        Member s.kernel.view m t := by
      rcases (h.kernel.step_kept he hs).current hj m with hsame | hp | hexec' |
        ⟨p, cur, t, _, _, hcur, ht, heq⟩
      · exact ⟨t₀, hsame.trans ht₀, hmem₀⟩
      · exact (unused_of_first hp (.inl hm'.1)).elim
      · exact absurd hexec' hexec
      · cases ht₀.symm.trans hcur
        exact ⟨t, heq, h.kernel.pick_member hm' hmem₀ ht⟩
    refine ⟨t, ht, ?_⟩
    cases hch.slot h.kernel t with
    | stays hlife hmain =>
      rw [Member, Live, hlife, hmain]
      exact hmem
    | dead hq => exact absurd hmem.1 hq
    | freed _ hq' => exact absurd (hch.freed_main (.inl hj) hm' hmem hq' hm) hexec
    | ended _ _ heq =>
      rw [Member, Live, heq]
      exact ⟨.inr rfl, hmem.2⟩
    | started hnew => exact absurd hmem.1 (not_live_of_embryo hnew.life)
    | created _ _ _ _ hq => exact absurd hmem.1 (not_live_of_embryo hq)
    | replaced hc hee _ hrel =>
      by_cases htm : t = m
      · exact absurd ⟨htm ▸ hc, hee⟩ hexec
      · have := hrel m m ⟨h.kernel.cpu t hc, hmem.2⟩ ⟨.inl hm'.1, hm'.2⟩ (Ne.symm htm)
        rw [hm.1] at this
        cases this
  · refine ⟨m, ?_, .inl hm.1, hm.2⟩
    rcases (h.kernel.step_kept he hs).current hj m with hsame | hp | ⟨hc, _⟩ | ⟨p, _, _, hp, hpm, _⟩
    · rw [hsame]
      exact h.newCurrent m hnew.life
    · have := firstUnused_spec hp
      rw [hnew.life] at this
      cases this
    · have := h.kernel.cpu m hc
      rw [hnew.life] at this
      cases this
    · exact absurd ⟨.inl (by simp [Kernel.view, Proc.view, hp, ProcState.life]), hpm⟩
        (h.kernel.new_alone hnew (q := p))
  · exact absurd hexec' hexec

/-- No thread was joined in a new process. -/
theorem JoinInv.newJoined_step (h : JoinInv s) (he : KeepsGroups s.kernel e)
    (hj : e.joins = false) (hs : step s.kernel e = .ok k')
    (hm : (k'.view m).life = .embryo) : noteJoined s e k' m = [] := by
  rcases h.kernel.embryo_before (h.kernel.step_change he hs) hm with hm' | ⟨halloc, hp⟩
  · rcases noteJoined_cases (s := s) k' hj m with hsame | hnil
    · rw [hsame]
      exact h.newJoined m hm'
    · exact hnil
  · exact noteJoined_alloc halloc hp

/-- The numbers of the threads that were joined are not used again. -/
theorem JoinInv.joined_step (h : JoinInv s) (he : KeepsGroups s.kernel e)
    (hj : e.joins = false) (hs : step s.kernel e = .ok k')
    (hm : Runs k'.view m m) {tid : Nat} (htid : tid ∈ noteJoined s e k' m) :
    tid ≤ (k'.view m).createNum ∧ ∀ q, Member k'.view m q → (k'.view q).tid ≠ tid := by
  have hch := h.kernel.step_change he hs
  by_cases hexec : s.kernel.cpuProc = some m ∧ e = .execFinish
  · obtain ⟨hc, rfl⟩ := hexec
    rw [noteJoined_exec hc] at htid
    cases htid
  have htid' : tid ∈ s.joined m := by
    rcases noteJoined_cases (s := s) k' hj m with hsame | hnil
    · rwa [hsame] at htid
    · rw [hnil] at htid; cases htid
  rcases h.kernel.main_before hch hm with hm' | hnew | hexec'
  · obtain ⟨hle, hne⟩ := h.joined m hm' tid htid'
    have hnum : (s.kernel.view m).createNum ≤ (k'.view m).createNum := by
      cases hch.slot h.kernel m with
      | stays _ _ _ _ _ hnum => exact hnum
      | dead hq => exact absurd (.inl hm'.1) hq
      | freed _ hq' => exact absurd (.inl hm.1) (not_live_of_unused hq')
      | ended _ _ heq => rw [heq]
      | started hnew => exact absurd (.inl hm'.1) (not_live_of_embryo hnew.life)
      | created _ _ _ _ hq => exact absurd (.inl hm'.1) (not_live_of_embryo hq)
      | replaced hc hee => exact absurd ⟨hc, hee⟩ hexec
    refine ⟨hle.trans hnum, fun q hq => ?_⟩
    cases hch.slot h.kernel q with
    | stays hlife hmain _ htid =>
      rw [htid]
      refine hne q ?_
      rw [Member, Live, ← hlife, ← hmain]
      exact hq
    | dead _ hq' => exact absurd hq.1 hq'
    | freed _ hq' => exact absurd hq.1 (not_live_of_unused hq')
    | ended hc _ heq =>
      rw [Member, Live, heq] at hq
      rw [heq]
      exact hne q ⟨.inl (h.kernel.cpu q hc), hq.2⟩
    | started hnew heq =>
      -- the child of a `fork` is its own main thread
      have hqm : q = m := Option.some.inj (by rw [← hq.2, heq, ← hnew.main])
      subst hqm
      exact absurd (.inl hm'.1) (not_live_of_embryo hnew.life)
    | created c m' _ _ _ heq =>
      have hmm : m' = m := Option.some.inj (by rw [← hq.2, heq])
      subst hmm
      rw [heq]
      show (s.kernel.view m').createNum + 1 ≠ tid
      omega
    | replaced hc hee heq =>
      have hqm : q = m := Option.some.inj (by rw [← hq.2, heq])
      exact absurd ⟨hqm ▸ hc, hee⟩ hexec
  · rw [h.newJoined m hnew.life] at htid'
    cases htid'
  · exact absurd hexec' hexec

/-- `thread_exit` wakes the process that waits for the thread. -/
theorem threadExit_wakes (hp : k.cpuProc = some p) (hj : (k.proc p).joinThread = some c)
    (hchan : (k.proc c).chan = some (.proc c)) (hs : step k .threadExit = .ok k') :
    (k'.proc c).state ≠ .SLEEPING := by
  intro hsleep
  rw [step] at hs
  split at hs
  · cases hs
  obtain ⟨p', hp', hs⟩ := byProc_ok hs
  cases hp.symm.trans hp'
  split at hs
  · rename_i r _
    split at hs
    · cases hs
      have hw : ((wakeup1 k (some (.proc c))).proc c).state = .SLEEPING := by
        have hrest : Awake (wakeup1 k (some (.proc c)))
            (zombie (reparent (wakeup1 k (some (.proc c))) p) p r) :=
          (Awake.same rfl).reparent.zombie r
        refine (hrest c ?_).1
        rw [threadExit, hj] at hsleep
        exact hsleep
      -- it slept, and is woken
      have hone : (wakeOne (some (.proc c)) (k.proc c)).state = .SLEEPING := hw
      rw [wakeOne] at hone
      split at hone
      · cases hone
      · rename_i hne
        exact hne ⟨hone, hchan⟩
    · cases hs
  · cases hs

/-- A process that sleeps in `thread_join` waits for a thread that has not exited. -/
theorem JoinInv.awake_step (h : JoinInv s) (he : KeepsGroups s.kernel e)
    (hs : step s.kernel e = .ok k')
    (hc : k'.call c = .join m p) (hsleep : (k'.proc c).state = .SLEEPING) :
    (k'.proc c).chan = some (.proc c) ∧ (k'.proc p).state ≠ .ZOMBIE := by
  rcases step_sleeps hs hsleep with ⟨hslept, hchan, hcpu⟩ | hjoin
  · rcases step_call hs c with (hsame | ⟨huser, _⟩) | ⟨hrun, huser | henter⟩
    · rw [hsame] at hc
      obtain ⟨hchan₀, hp⟩ := h.awake c m p hc hslept
      refine ⟨hchan.trans hchan₀, fun hz => ?_⟩
      obtain ⟨hm, hmem, _, hpj⟩ := h.kernel.inv.join_member hc
      have hact : (s.kernel.view c).life = .active := h.kernel.inv.inCall c (by rw [hc]; simp)
      have hz' : (k'.view p).life = .zombie := by
        simp [Kernel.view, Proc.view, hz, ProcState.life]
      have hnz : (s.kernel.view p).life ≠ .zombie := fun hpz => by
        rw [Kernel.view, Proc.view] at hpz
        cases hst : (s.kernel.proc p).state <;> simp [hst, ProcState.life] at hpz
        exact hp hst
      cases (h.kernel.step_change he hs).slot h.kernel p with
      | stays hlife => exact hnz (hlife ▸ hz')
      | dead _ hq' => exact hq' (.inr hz')
      | freed _ hq' => rw [hz'] at hq'; cases hq'
      | ended hpc hee heq hrel =>
        rcases hee with rfl | rfl
        · -- `exit` releases the process that waits
          by_cases hcp : c = p
          · subst hcp
            rw [step] at hs
            split at hs
            · cases hs
            obtain ⟨c', hc', hs⟩ := byProc_ok hs
            cases hpc.symm.trans hc'
            split at hs
            · rename_i hcall
              rw [hc] at hcall
              cases hcall.1
            · cases hs
          · have hgone := hrel rfl m c ⟨h.kernel.cpu p hpc, hmem.2⟩ ⟨.inl hact, hm⟩ hcp
            simp [Kernel.view, Proc.view, hsleep, ProcState.life] at hgone
        · exact threadExit_wakes hpc hpj hchan₀ hs hsleep
      | started _ heq => rw [heq] at hz'; cases hz'
      | created _ _ _ _ _ heq => rw [heq] at hz'; cases hz'
      | replaced hpc _ heq => rw [heq] at hz'; rw [h.kernel.cpu p hpc] at hz'; cases hz'
    · rw [huser] at hc; cases hc
    · rw [huser] at hc; cases hc
    · rw [hc] at henter
      cases henter with
      | join _ _ _ hj => exact absurd hrun (hcpu hj)
  · exact hjoin m p hc

/-! ### A `thread_join` that releases a thread -/

theorem view_joined (hpm : p ≠ m) : ((freeThread (unlinked k c m p) p).ret c 0).view =
    Function.update (Function.update k.view m { k.view m with next := (k.view p).next }) p
      (k.view p).freed := by
  rw [view_ret, view_freeThread, view_unlinked, Function.update_of_ne hpm]

/-- The other threads of the process, and those of other processes. -/
theorem view_joined_other (hpm : p ≠ m) (hq : q ≠ p) :
    ((freeThread (unlinked k c m p) p).ret c 0).view q =
      { k.view q with next := if q = m then (k.view p).next else (k.view q).next } := by
  rw [view_joined hpm, Function.update_of_ne hq]
  by_cases hqm : q = m
  · subst hqm; simp
  · simp [hqm]

/-- The threads of all processes after a `thread_join`. -/
theorem member_joined (hpm : p ≠ m) :
    Member ((freeThread (unlinked k c m p) p).ret c 0).view q t ↔ Member k.view q t ∧ t ≠ p := by
  by_cases htp : t = p
  · subst htp
    have hdead : ¬ Live ((freeThread (unlinked k c m t) t).ret c 0).view t :=
      not_live_of_unused (by rw [view_joined hpm, Function.update_self]; rfl)
    exact ⟨fun h => absurd h.1 hdead, fun h => absurd rfl h.2⟩
  · rw [Member, Live, view_joined_other hpm htp]
    simp [Member, Live, htp]

/-- The invariant when `thread_join` by `c` has released `p`. -/
theorem JoinInv.joins (h : JoinInv s) (hp : Member s.kernel.view m p) (hpm : p ≠ m)
    (hk' : k' = (freeThread (unlinked s.kernel c m p) p).ret c 0)
    (hjoined : noteJoined s e k' =
      Function.update s.joined m ((s.kernel.proc p).tid :: s.joined m)) :
    (∀ m₁, (k'.view m₁).life = .embryo → (k'.proc m₁).currentThread = some m₁) ∧
    (∀ m₁, Runs k'.view m₁ m₁ →
      ∃ t, (k'.proc m₁).currentThread = some t ∧ Member k'.view m₁ t) ∧
    (∀ m₁, (k'.view m₁).life = .embryo → noteJoined s e k' m₁ = []) ∧
    ∀ m₁, Runs k'.view m₁ m₁ → ∀ tid ∈ noteJoined s e k' m₁,
      tid ≤ (k'.view m₁).createNum ∧ ∀ q, Member k'.view m₁ q → (k'.view q).tid ≠ tid := by
  have hp' : (k'.view p).life = .unused := by
    rw [hk', view_joined hpm, Function.update_self]
    rfl
  have hother : ∀ {q : Slot}, q ≠ p → (k'.view q).life = (s.kernel.view q).life ∧
      (k'.view q).main = (s.kernel.view q).main ∧ (k'.view q).tid = (s.kernel.view q).tid ∧
      (k'.view q).createNum = (s.kernel.view q).createNum := fun hq => by
    rw [hk', view_joined_other hpm hq]
    exact ⟨rfl, rfl, rfl, rfl⟩
  have hnep : ∀ {m₁ : Slot}, (k'.view m₁).life ≠ .unused → m₁ ≠ p := fun hne hmp =>
    hne (hmp ▸ hp')
  have hcur : ∀ {m₁ : Slot}, m₁ ≠ m →
      (k'.proc m₁).currentThread = (s.kernel.proc m₁).currentThread := fun hne => by
    rw [hk']
    exact kept_of_update Kept.currentThread kept_joined fun hh => absurd hh hne
  have hrun : ∀ {m₁ : Slot}, Runs k'.view m₁ m₁ → Runs s.kernel.view m₁ m₁ ∧ m₁ ≠ p :=
    fun hm₁ => by
      have hne := hnep (by rw [hm₁.1]; simp)
      refine ⟨?_, hne⟩
      rw [Runs, ← (hother hne).1, ← (hother hne).2.1]
      exact hm₁
  have hmem : ∀ {m₁ q : Slot}, Member k'.view m₁ q ↔ Member s.kernel.view m₁ q ∧ q ≠ p := by
    rw [hk']
    exact member_joined hpm
  refine ⟨fun m₁ hm₁ => ?_, fun m₁ hm₁ => ?_, fun m₁ hm₁ => ?_, fun m₁ hm₁ tid htid => ?_⟩
  · have hne := hnep (by rw [hm₁]; simp)
    rw [(hother hne).1] at hm₁
    have hmm : m₁ ≠ m := fun hmm => by
      subst hmm
      exact h.kernel.inv.no_members (by rw [hm₁]; simp) (.inr hm₁) hp
    rw [hcur hmm]
    exact h.newCurrent m₁ hm₁
  · obtain ⟨hm₁', hne⟩ := hrun hm₁
    obtain ⟨t, ht, htm⟩ := h.current m₁ hm₁'
    by_cases hmm : m₁ = m
    · subst hmm
      have hset : (k'.proc m₁).currentThread = if (s.kernel.proc m₁).currentThread = some p
          then some m₁ else (s.kernel.proc m₁).currentThread := by
        rw [hk']
        have := congrArg Kept.currentThread (congrFun (kept_joined (k := s.kernel) (c := c)
          (m := m₁) (p := p)) m₁)
        rwa [Function.update_self] at this
      rw [hset, ht]
      by_cases htp : t = p
      · subst htp
        exact ⟨m₁, by simp, .inl hm₁.1, hm₁.2⟩
      · exact ⟨t, by simp [htp], hmem.mpr ⟨htm, htp⟩⟩
    · refine ⟨t, (hcur hmm).trans ht, hmem.mpr ⟨htm, fun htp => ?_⟩⟩
      subst htp
      exact hmm (Option.some.inj (htm.2.symm.trans hp.2))
  · have hne := hnep (by rw [hm₁]; simp)
    rw [(hother hne).1] at hm₁
    have hmm : m₁ ≠ m := fun hmm => by
      subst hmm
      exact h.kernel.inv.no_members (by rw [hm₁]; simp) (.inr hm₁) hp
    rw [hjoined, Function.update_of_ne hmm]
    exact h.newJoined m₁ hm₁
  · obtain ⟨hm₁', hne⟩ := hrun hm₁
    rw [(hother hne).2.2.2]
    have hold : ∀ tid ∈ s.joined m₁, tid ≤ (s.kernel.view m₁).createNum ∧
        ∀ q, Member k'.view m₁ q → (k'.view q).tid ≠ tid := fun tid htid => by
      obtain ⟨hle, hall⟩ := h.joined m₁ hm₁' tid htid
      refine ⟨hle, fun q hq => ?_⟩
      obtain ⟨hq', hqp⟩ := hmem.mp hq
      rw [(hother hqp).2.2.1]
      exact hall q hq'
    rw [hjoined] at htid
    by_cases hmm : m₁ = m
    · subst hmm
      rw [Function.update_self, List.mem_cons] at htid
      rcases htid with rfl | htid
      · have hg := h.kernel.inv.groups m₁
        have hlead : Leader s.kernel.view m₁ := ⟨.inl hm₁'.1, hm₁'.2⟩
        refine ⟨hg.tidLe hlead p hp, fun q hq htq => ?_⟩
        obtain ⟨hq', hqp⟩ := hmem.mp hq
        rw [(hother hqp).2.2.1] at htq
        exact hqp (hg.tidInj hlead q p hq' hp htq)
      · exact hold tid htid
    · rw [Function.update_of_ne hmm] at htid
      exact hold tid htid

/-- What the caller of a `thread_join` that has released `p` finds. -/
theorem joined_ret (hpc : p ≠ c) : let k' := (freeThread (unlinked k c m p) p).ret c 0
    k'.call c = .user ∧ (k'.proc c).eax = 0 ∧ (k'.proc c).joinVal = (k.proc p).retval := by
  refine ⟨Function.update_self .., ?_, ?_⟩
  · rw [Kernel.ret, proc_setCall, setProc_self]
  · rw [Kernel.ret, proc_setCall, setProc_self]
    show ((freeThread (unlinked k c m p) p).proc c).joinVal = _
    rw [freeThread, proc_setWalk, proc_setCall, setProc_other hpc.symm, unlinked]
    by_cases hcm : c = m
    · subst hcm
      rw [setProc_self, setProc_self]
    · rw [setProc_other hcm, setProc_self]

/-- One step of the run. -/
theorem JoinInv.step (h : JoinInv s) (he : KeepsGroups s.kernel e)
    (hs : Thread.step s.kernel e = .ok k') (hfree : k'.ptableLocked = false) :
    JoinInv ⟨k', notePassed s e, noteJoined s e k'⟩ := by
  have hkernel := h.kernel.step he (fun hD => hD.elim) (fun hW => hW.elim) hs hfree
  have hrest : (∀ m, (k'.view m).life = .embryo → (k'.proc m).currentThread = some m) ∧
      (∀ m, Runs k'.view m m →
        ∃ t, (k'.proc m).currentThread = some t ∧ Member k'.view m t) ∧
      (∀ m, (k'.view m).life = .embryo → noteJoined s e k' m = []) ∧
      ∀ m, Runs k'.view m m → ∀ tid ∈ noteJoined s e k' m,
        tid ≤ (k'.view m).createNum ∧ ∀ q, Member k'.view m q → (k'.view q).tid ≠ tid := by
    cases hj : e.joins with
    | false =>
      exact ⟨fun _ => h.newCurrent_step he hj hs, fun _ => h.current_step he hj hs,
        fun _ => h.newJoined_step he hj hs, fun _ hm _ => h.joined_step he hj hs hm⟩
    | true =>
      obtain ⟨c, m, hc, hm, hout⟩ := h.kernel.step_join he hj hs
      have hmain : (s.kernel.proc c).mainThread = some m := hm.2
      rcases hout with ⟨hview, hkept, hret⟩ | ⟨p, htid, hp, hpm, hpc, _, _, hk'⟩
      · have hnone : noteJoined s e k' = s.joined := by
          rw [noteJoined_joins hj]
          simp [joinedBy, hc, hmain, hret]
        have hcur : ∀ m, (k'.proc m).currentThread = (s.kernel.proc m).currentThread := fun m =>
          congrArg Kept.currentThread (congrFun hkept m)
        simp only [hview, hnone, hcur]
        exact ⟨h.newCurrent, h.current, h.newJoined, h.joined⟩
      · refine h.joins hp hpm hk' ?_
        have hret := joined_ret (k := s.kernel) (m := m) hpc
        rw [noteJoined_joins hj]
        have hby : joinedBy s.kernel e k' = some (m, (s.kernel.proc p).tid) := by
          rw [hk']
          simp only [joinedBy, hc, Option.bind_eq_bind, Option.bind_some, hmain, htid]
          exact if_pos ⟨hret.1, hret.2.1⟩
        rw [hby]
  exact ⟨hkernel, fun c r hc => h.passing_step hs c r hc,
    fun m q hm hq hqm hz => h.values_step he hs hm hq hqm hz, hrest.1, hrest.2.1,
    hrest.2.2.1, hrest.2.2.2, fun c m p hc hsl => h.awake_step he hs hc hsl⟩

end Preservation

/-- The invariant holds at the start. -/
theorem JoinInv.init {s : JoinRun} (h : JoinInit s) : JoinInv s := by
  obtain ⟨hinit, hpassed, hjoined⟩ := h
  obtain ⟨d, hproc, hcall, _⟩ := init_eq hinit
  have hself : s.kernel.proc 0 = initProc d := by rw [hproc, Function.update_self]
  have hother : ∀ q, q ≠ 0 → (s.kernel.view q).life = .unused := fun q hq => by
    rw [Kernel.view, hproc, Function.update_of_ne hq]
    rfl
  have honly : ∀ q, Live s.kernel.view q → q = 0 := fun q hq => by
    by_contra hne
    exact not_live_of_unused (hother q hne) hq
  have hemb : ∀ q, (s.kernel.view q).life ≠ .embryo := fun q hq => by
    by_cases hq0 : q = 0
    · subst hq0
      rw [Kernel.view, hself] at hq
      cases hq
    · rw [hother q hq0] at hq
      cases hq
  refine ⟨.init hinit, fun c r hc => ?_, fun m q hm hq hqm _ => ?_, fun m hm => absurd hm (hemb m),
    fun m hm => ?_, fun m hm => absurd hm (hemb m), fun m _ tid htid => ?_, fun c m p hc => ?_⟩
  · rw [hcall] at hc; cases hc
  · exact absurd ((honly q hq.1).trans (honly m (.inl hm.1)).symm) hqm
  · obtain rfl := honly m (.inl hm.1)
    exact ⟨0, by rw [hself]; rfl, .inl hm.1, hm.2⟩
  · rw [hjoined] at htid; cases htid
  · rw [hcall] at hc; cases hc

/-- The invariant holds in every state of a run in which the lock is free. -/
theorem JoinInv.of_reachable {s : JoinRun}
    (h : Reachable JoinInit (Steps joinStep fun s e => KeepsGroups s.kernel e) s)
    (hfree : s.kernel.ptableLocked = false) : JoinInv s := by
  have hinv : s.kernel.ptableLocked = false → JoinInv s := by
    refine h.invariant (I := fun s => s.kernel.ptableLocked = false → JoinInv s)
      (fun s h₀ _ => .init h₀) fun s t ih hstep hfree => ?_
    obtain ⟨e, he, hs⟩ := hstep
    obtain ⟨k', hk', hs⟩ := bind_eq_ok.mp hs
    cases hs
    exact (ih (free_of_step hk')).step he hk' hfree
  exact hinv hfree

/-! ### The order of the joins -/

/-- A thread of the process of `m` that `c` has created, and that was not joined yet. -/
def CreatedBy (k : Kernel) (m c p : Slot) : Prop :=
  (k.proc p).mainThread = some m ∧ p ≠ m ∧ (k.proc p).joinThread = some c ∧
    (k.proc p).state ≠ .UNUSED ∧ (k.proc p).state ≠ .EMBRYO

instance (k : Kernel) (m c p : Slot) : Decidable (CreatedBy k m c p) :=
  inferInstanceAs (Decidable (_ ∧ _))

theorem CreatedBy.member (h : CreatedBy k m c p) : Member k.view m p := by
  refine ⟨?_, h.1⟩
  have hlife : (k.view p).life = (k.proc p).state.life := rfl
  rw [Live, hlife]
  obtain ⟨_, _, _, hu, he⟩ := h
  cases hst : (k.proc p).state
  · exact absurd hst hu
  · exact absurd hst he
  all_goals simp [ProcState.life]

/-- Where a `thread_join` by `c` of the thread `p` leads: `c` waits until the thread has exited, or
    the thread is joined. -/
def JoinsThread (s : JoinRun) (c m p : Slot) (r : Except Stop Kernel) : Prop :=
  ∃ k', r = .ok k' ∧ ((s.kernel.proc p).state = .ZOMBIE → Joined s c m p k') ∧
    ((s.kernel.proc p).state ≠ .ZOMBIE → Waits c m p k')

/-- The list after the release of the first thread. -/
theorem JoinInv.joined_first {s : JoinRun} (h : JoinInv s)
    (hm : Runs s.kernel.view m c) (hp : Member s.kernel.view m p) (hpm : p ≠ m) (hpc : p ≠ c)
    (hz : (s.kernel.proc p).state = .ZOMBIE) (hfirst : (s.kernel.proc m).nextThread = some p) :
    Joined s c m p ((freeThread (unlinked s.kernel c m p) p).ret c 0) := by
  obtain ⟨_, hlead, hmact⟩ := h.kernel.inv.leader_of_active hm.1 hm.2
  have hrun : Runs s.kernel.view m m := ⟨hmact, hlead.2⟩
  have hz' : (s.kernel.view p).life = .zombie := by
    simp [Kernel.view, Proc.view, hz, ProcState.life]
  obtain ⟨huser, hret, hval⟩ := joined_ret (k := s.kernel) (m := m) hpc
  obtain ⟨ys, hxs, hys, _, hx⟩ := h.kernel.thread_list hrun
  have hnd := hxs.nodup
  have hnext : s.kernel.next m = some p := hfirst
  rw [hnext] at hys
  obtain ⟨zs, rfl, hzs⟩ := chain_some_iff.mp hys
  have herase : (m :: p :: zs).erase p = m :: zs := by
    rw [List.erase_cons_tail (by simpa using hpm.symm), List.erase_cons_head]
  have hmz : m ∉ zs := fun hmz => (List.nodup_cons.mp hnd).1 (by simp [hmz])
  have hpz : p ∉ zs := (List.nodup_cons.mp (List.nodup_cons.mp hnd).2).1
  generalize hk' : (freeThread (unlinked s.kernel c m p) p).ret c 0 = k' at *
  have hother : ∀ {q : Slot}, q ≠ p → k'.view q = { s.kernel.view q with
      next := if q = m then (s.kernel.view p).next else (s.kernel.view q).next } := fun hq => by
    rw [← hk', view_joined_other hpm hq]
  have hmem : ∀ q ∈ m :: zs, Member k'.view m q := fun q hq => by
    rw [← hk', member_joined hpm]
    refine ⟨(hx q).mp ?_, ?_⟩
    · exact (List.mem_cons.mp hq).elim (fun hq => by simp [hq]) fun hq => by simp [hq]
    · rintro rfl
      rcases List.mem_cons.mp hq with hq | hq
      · exact hpm hq
      · exact hpz hq
  refine ⟨huser, hret, ?_, m :: p :: zs, hxs, by simp, ?_, ?_, ?_⟩
  · rw [hval]
    exact h.values m p hrun hp hpm hz'
  · rw [herase, chain_cons_iff]
    refine ⟨rfl, ?_⟩
    have hm' : k'.next m = s.kernel.next p := by
      show (k'.view m).next = _
      rw [hother hpm.symm]
      simp
      rfl
    rw [hm']
    refine hzs.congr fun q hq => ?_
    show (k'.view q).next = _
    rw [hother fun hqp => hpz (hqp ▸ hq)]
    simp only [if_neg fun hqm : q = m => hmz (hqm ▸ hq)]
    rfl
  · rw [herase]
    exact fun q hq => state_of_live (hmem q hq).1
  · rw [herase]
    obtain ⟨t, ht, htm⟩ := h.current m hrun
    have hcur : (k'.proc m).currentThread = if (s.kernel.proc m).currentThread = some p
        then some m else (s.kernel.proc m).currentThread := by
      have := congrArg Kept.currentThread (congrFun (kept_joined (k := s.kernel) (c := c)
        (m := m) (p := p)) m)
      rw [Function.update_self, hk'] at this
      exact this
    rw [hcur, ht]
    by_cases htp : t = p
    · exact ⟨m, by simp, by simp [htp]⟩
    · have := (hx t).mpr htm
      simp only [List.mem_cons, htp, false_or] at this
      exact ⟨t, by simpa using this, by simp [htp]⟩

/-- The rest of a `thread_join`. -/
theorem JoinInv.joinCheck_joins {s : JoinRun} (h : JoinInv s) (hc : s.kernel.cpuProc = some c)
    (hm : Runs s.kernel.view m c) (hp : Member s.kernel.view m p) (hpm : p ≠ m)
    (hfirst : FirstIfZombie s.kernel m p) : JoinsThread s c m p (joinCheck s.kernel c m p) := by
  rcases h.kernel.joinCheck_eq hc hp hpm hfirst with ⟨hz, heq⟩ | ⟨hz, hpc, heq⟩
  · exact ⟨_, heq, fun hz' => absurd hz' hz, fun _ => waits_sleep⟩
  · exact ⟨_, heq, fun _ => h.joined_first hm hp hpm hpc hz (hfirst hz),
      fun hz' => absurd hz hz'⟩

/-- In every run in which a thread is released only as the first one of its list, a `thread_join`
    of a thread that was not joined yet waits until the thread has exited and then returns 0 with
    its value, and takes exactly this thread out of the list; a second `thread_join` of the thread
    returns -1; and a process that waits for a thread that has exited is not asleep. -/
theorem join_returns {s : JoinRun}
    (h : Reachable JoinInit (Steps joinStep fun s e => KeepsGroups s.kernel e) s)
    (hfree : s.kernel.ptableLocked = false) (hc : s.kernel.cpuProc = some c)
    (hm : (s.kernel.proc c).mainThread = some m) :
    (s.kernel.call c = .user → ∀ p, CreatedBy s.kernel m c p → FirstIfZombie s.kernel m p →
      JoinsThread s c m p (step s.kernel (.threadJoin (s.kernel.proc p).tid))) ∧
    (∀ m' p, s.kernel.call c = .join m' p → m' = m ∧ CreatedBy s.kernel m c p ∧
      (FirstIfZombie s.kernel m p → JoinsThread s c m p (step s.kernel .joinCheck))) ∧
    (s.kernel.call c = .user → ∀ tid ∈ s.joined m, ∃ k',
      step s.kernel (.threadJoin tid) = .ok k' ∧ k'.call c = .user ∧ (k'.proc c).eax = -1) ∧
    ∀ c' m' p, s.kernel.call c' = .join m' p → (s.kernel.proc p).state = .ZOMBIE →
      (s.kernel.proc c').state ≠ .SLEEPING := by
  have hinv := JoinInv.of_reachable h hfree
  have hact := hinv.kernel.cpu c hc
  have hrun : Runs s.kernel.view m c := ⟨hact, hm⟩
  obtain ⟨_, hlead, hmact⟩ := hinv.kernel.inv.leader_of_active hact hm
  have hg := hinv.kernel.inv.groups m
  refine ⟨fun hu p hp hfirst => ?_, fun m' p hcall => ?_, fun hu tid htid => ?_,
    fun c' m' p hcall hz hsleep => (hinv.awake c' m' p hcall hsleep).2 hz⟩
  · have hfind := hinv.kernel.find_thread (m := m) (p := p)
      (P := fun q => (s.kernel.proc q).tid = (s.kernel.proc p).tid ∧
        (s.kernel.proc q).joinThread = some c) ⟨hmact, hlead.2⟩
      (fun q hq _ hP => hg.tidInj hlead q p hq hp.member (of_decide_eq_true hP).1) hp.member
      hp.2.1 (by simp [hp.2.2.1])
    have heq : step s.kernel (.threadJoin (s.kernel.proc p).tid) =
        joinCheck s.kernel c m p := by
      simp only [step, hfree, stepFree, byUser, byProc, hc, hu, threadJoin, hm, deref, hfind,
        ok_bind, Bool.false_eq_true, if_true, if_false]
    rw [heq]
    exact hinv.joinCheck_joins hc hrun hp.member hp.2.1 hfirst
  · obtain ⟨hm', hp, hpm, hj⟩ := hinv.kernel.inv.join_member hcall
    have hmm : m' = m := Option.some.inj (hm'.symm.trans hm)
    subst hmm
    refine ⟨rfl, ⟨hp.2, hpm, hj, state_of_live hp.1, state_of_live' hp.1⟩, fun hfirst => ?_⟩
    have heq : step s.kernel .joinCheck = joinCheck s.kernel c m' p := by
      simp only [step, hfree, stepFree, byProc, hc, hcall, Bool.false_eq_true, if_false]
    rw [heq]
    exact hinv.joinCheck_joins hc hrun hp hpm hfirst
  · obtain ⟨_, hne⟩ := hinv.joined m ⟨hmact, hlead.2⟩ tid htid
    have hfind := hinv.kernel.find_no_thread (m := m)
      (P := fun q => (s.kernel.proc q).tid = tid ∧ (s.kernel.proc q).joinThread = some c)
      ⟨hmact, hlead.2⟩ fun q hq => by
        have : (s.kernel.proc q).tid ≠ tid := hne q hq
        simp [this]
    refine ⟨s.kernel.ret c (-1), ?_, Function.update_self .., ?_⟩
    · simp only [step, hfree, stepFree, byUser, byProc, hc, hu, threadJoin, hm, deref, hfind,
        ok_bind, Bool.false_eq_true, if_true, if_false]
    · rw [Kernel.ret, proc_setCall, setProc_self]

/-- The main thread joins a thread that has exited with the value 5. -/
theorem join_returns_first : ∃ s k', s.passed 2 = some 5 ∧
    step s.kernel (.threadJoin (s.kernel.proc 2).tid) = .ok k' ∧ Joined s 1 1 2 k' := by
  obtain ⟨k₀, h₀⟩ : ∃ k, userinit boot 7 = .ok k := ⟨_, rfl⟩
  have hstart : Reachable JoinInit (Steps joinStep fun s e => KeepsGroups s.kernel e)
      ⟨k₀, fun _ => none, fun _ => []⟩ := .start ⟨⟨7, h₀⟩, rfl, rfl⟩
  obtain ⟨s, hs, hp⟩ := reachable_of_reachTest joinStep (fun s e => KeepsGroups s.kernel e)
    (fun s => decide (s.kernel.ptableLocked = false ∧ s.kernel.cpuProc = some 1 ∧
      (s.kernel.proc 1).mainThread = some 1 ∧ s.kernel.call 1 = .user ∧ s.passed 2 = some 5 ∧
      CreatedBy s.kernel 1 1 2 ∧ (s.kernel.proc 2).state = .ZOMBIE ∧
      FirstIfZombie s.kernel 1 2))
    (twoThreads ++ [.yield, .schedule] ++ threadExitSteps 5 ++ [.schedule, .schedule])
    hstart (by cases h₀; decide +kernel)
  obtain ⟨hfree, hc, hm, hu, hval, hcr, hz, hfirst⟩ := of_decide_eq_true hp
  obtain ⟨k', hk', hjoined, _⟩ := (join_returns hs hfree hc hm).1 hu 2 hcr hfirst
  exact ⟨s, k', hval, hk', hjoined hz⟩

/-- The main thread joins its second thread before the first one.  The thread stays in the list,
    as an unused slot. -/
theorem join_second_thread : ∃ s k',
    Reachable JoinInit (Steps joinStep fun s e => KeepsGroups s.kernel e) s ∧
    s.kernel.ptableLocked = false ∧ s.kernel.cpuProc = some 1 ∧ s.kernel.call 1 = .user ∧
    (s.kernel.proc 1).mainThread = some 1 ∧ CreatedBy s.kernel 1 1 3 ∧
    (s.kernel.proc 3).state = .ZOMBIE ∧
    step s.kernel (.threadJoin (s.kernel.proc 3).tid) = .ok k' ∧ ¬ Joined s 1 1 3 k' := by
  obtain ⟨k₀, h₀⟩ : ∃ k, userinit boot 7 = .ok k := ⟨_, rfl⟩
  have hstart : Reachable JoinInit (Steps joinStep fun s e => KeepsGroups s.kernel e)
      ⟨k₀, fun _ => none, fun _ => []⟩ := .start ⟨⟨7, h₀⟩, rfl, rfl⟩
  obtain ⟨s, hs, hp⟩ := reachable_of_reachTest joinStep (fun s e => KeepsGroups s.kernel e)
    (fun s => decide (s.kernel.ptableLocked = false ∧ s.kernel.cpuProc = some 1 ∧
      s.kernel.call 1 = .user ∧ (s.kernel.proc 1).mainThread = some 1 ∧
      CreatedBy s.kernel 1 1 3 ∧ (s.kernel.proc 3).state = .ZOMBIE) &&
      execTest step s.kernel [.threadJoin (s.kernel.proc 3).tid] fun k' =>
        decide (k'.next 1 = some 2 ∧ k'.next 2 = some 3 ∧ k'.next 3 = none ∧ (k'.proc 3).state = .UNUSED))
    (twoThreads ++ [.createAlloc true, .createFinish true, .yield, .schedule, .yield, .schedule] ++
      threadExitSteps 5 ++ [.schedule, .schedule])
    hstart (by cases h₀; decide +kernel)
  rw [Bool.and_eq_true, decide_eq_true_eq] at hp
  obtain ⟨⟨hfree, hc, hu, hm, hcr, hz⟩, hjoin⟩ := hp
  obtain ⟨k', hk', hlinks⟩ := step_of_execTest hjoin
  obtain ⟨h₁, h₂, h₃, hunused⟩ := of_decide_eq_true hlinks
  refine ⟨s, k', hs, hfree, hc, hu, hm, hcr, hz, hk', fun hj => ?_⟩
  obtain ⟨xs, _, _, hchain, hstate, _⟩ := hj.list
  have hlist : Chain k'.next (some 1) [1, 2, 3] := by simp [h₁, h₂, h₃]
  rw [hchain.unique hlist] at hstate
  exact hstate 3 (by simp) hunused

end Xv6.Thread
