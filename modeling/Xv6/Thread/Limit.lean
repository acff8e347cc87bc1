import Xv6.Thread.Join
import Xv6.Thread.Pids
import Xv6.Thread.Sbrk

namespace Xv6.Thread

open Xv6.Lib

/-!
# Threads — the memory limit

The limit of a process is a field of its main thread.  `sbrk`, `thread_create` and `exec` compare
the new size with it, each at another moment: `exec` only after it has set the size of its caller.
A run of the machine is extended with the last limit that `setmemorylimit` has set for every `pid`:

* `limit_holds` — if no `exec` exceeds the limit, the caller of an `exec` that ends has the same
  limit as its main thread, and `setmemorylimit` finds the main thread of a process that is not
  inside `exec`, the threads of a process stay within its limit and the limit stays in force;
* `limit_exceeded` — an `exec` that fails because of the limit leaves its caller above it.
-/

/-- The machine, and the last limit that was set for every `pid`, or 0. -/
structure LimitRun where
  kernel : Kernel
  limit : Int → Nat

/-- The limits after the step `e` to `k'`: a `setmemorylimit` that returns 0 sets one. -/
def noteLimit (s : LimitRun) (e : Step) (k' : Kernel) : Int → Nat :=
  match e, s.kernel.cpuProc with
  | .setmemorylimit pid limit, some c =>
    if (k'.proc c).eax = 0 then Function.update s.limit pid limit.toNat else s.limit
  | _, _ => s.limit

/-- One step of the machine, with the limit that it sets. -/
def limitStep (s : LimitRun) (e : Step) : Except Stop LimitRun := do
  let k' ← step s.kernel e
  .ok ⟨k', noteLimit s e k'⟩

/-- At the start no process has a limit. -/
def LimitInit (s : LimitRun) : Prop := Init s.kernel ∧ s.limit = fun _ => 0

/-- A process between the change of its directory in `exec` and the end of the call. -/
def Call.execs : Call → Bool
  | .exec _ => true
  | _ => false

/-- The process of `p` was started, and none of its threads is inside `exec`. -/
def Settled (k : Kernel) (p : Slot) : Prop :=
  (k.proc p).state ≠ .EMBRYO ∧ ∀ q, (k.proc q).mainThread = some p → (k.call q).execs = false

/-- The conditions under which the limits are kept. -/
def InLimit (s : LimitRun) : Step → Prop
  | .execCommit _ sz => ∀ c ∈ s.kernel.cpuProc, ∀ m ∈ (s.kernel.proc c).mainThread,
      ¬ overLimit s.kernel m sz
  | .execFinish => ∀ c ∈ s.kernel.cpuProc, ∀ m ∈ (s.kernel.proc c).mainThread,
      0 < s.limit (s.kernel.proc c).pid →
        (s.kernel.proc c).memoryLimit = (s.kernel.proc m).memoryLimit
  | .setmemorylimit pid limit => 0 ≤ limit → ∀ p ∈ limitSlot s.kernel pid,
      (s.kernel.proc p).state ≠ .UNUSED → (s.kernel.proc p).sz ≤ limit.toNat →
        (s.kernel.proc p).mainThread = some p ∧ (0 < limit → Settled s.kernel p)
  | _ => True

/-- The steps of a run in which the limits are kept. -/
def KeepsLimit (s : LimitRun) (e : Step) : Prop := KeepsGroups s.kernel e ∧ InLimit s e

/-- The slot holds a thread that has run. -/
def IsThread (k : Kernel) (q : Slot) : Prop :=
  (k.proc q).state ≠ .UNUSED ∧ (k.proc q).state ≠ .EMBRYO

instance (k : Kernel) (p : Slot) : Decidable (Settled k p) :=
  inferInstanceAs (Decidable (_ ∧ _))

instance (s : LimitRun) : (e : Step) → Decidable (InLimit s e)
  | .execCommit _ _ => inferInstanceAs (Decidable (∀ c ∈ s.kernel.cpuProc,
      ∀ m ∈ (s.kernel.proc c).mainThread, _))
  | .execFinish => inferInstanceAs (Decidable (∀ c ∈ s.kernel.cpuProc,
      ∀ m ∈ (s.kernel.proc c).mainThread, _))
  | .setmemorylimit pid _ => inferInstanceAs (Decidable (_ → ∀ p ∈ limitSlot s.kernel pid, _))
  | .forkAlloc _ | .forkCopy _ | .forkRun | .createAlloc _ | .createFinish _ | .exitBegin
  | .threadExitBegin _ | .closeFiles | .exit | .threadExit | .wait | .threadJoin _ | .joinCheck
  | .sbrk _ | .growproc _ | .kill _ | .fdalloc _ | .close _ | .chdir _ | .sleep _ | .yield
  | .wakeup _ | .schedule => .isTrue trivial

instance (s : LimitRun) (e : Step) : Decidable (KeepsLimit s e) :=
  inferInstanceAs (Decidable (_ ∧ _))

instance (k : Kernel) (q : Slot) : Decidable (IsThread k q) :=
  inferInstanceAs (Decidable (_ ∧ _))

variable {D W : Prop} {k k' : Kernel} {c m p q : Slot} {e : Step} {s : LimitRun}

theorem life_unused (h : (k.view q).life = .unused) : (k.proc q).state = .UNUSED := by
  cases hst : (k.proc q).state <;> simp [Kernel.view, Proc.view, hst, ProcState.life] at h
  rfl

theorem life_embryo (h : (k.view q).life = .embryo) : (k.proc q).state = .EMBRYO := by
  cases hst : (k.proc q).state <;> simp [Kernel.view, Proc.view, hst, ProcState.life] at h
  rfl

theorem life_zombie (h : (k.view q).life = .zombie) : (k.proc q).state = .ZOMBIE := by
  cases hst : (k.proc q).state <;> simp [Kernel.view, Proc.view, hst, ProcState.life] at h
  rfl

theorem IsThread.live (h : IsThread k q) : Live k.view q := by
  cases hl : (k.view q).life with
  | unused => exact absurd (life_unused hl) h.1
  | embryo => exact absurd (life_embryo hl) h.2
  | active => exact .inl hl
  | zombie => exact .inr hl

/-! ### `exec` -/

/-- A process inside `exec` stays there until the end of `exec`, unless it is released. -/
theorem exec_stays (hs : step k e = .ok k') (hq : (k.call q).execs = true) :
    (k'.call q).execs = true ∨ (k'.proc q).state = .UNUSED ∨
      (k.cpuProc = some q ∧ e = .execFinish) := by
  rcases step_call hs q with (hsame | ⟨_, hu⟩) | ⟨hc, _⟩
  · exact .inl (by rw [hsame]; exact hq)
  · exact .inr (.inl hu)
  obtain ⟨old, hold⟩ : ∃ old, k.call q = .exec old := by
    cases hcall : k.call q with
    | exec old => exact ⟨old, rfl⟩
    | _ => rw [hcall] at hq; cases hq
  rw [step] at hs
  split at hs
  · cases hs
  cases e with
  | execFinish => exact .inr (.inr ⟨hc, rfl⟩)
  | closeFiles =>
    obtain ⟨c, hc', hs⟩ := byProc_ok hs
    rw [call_closeFiles hs]
    exact .inl hq
  | sleep chan =>
    simp only [stepFree, byProc, hc, hold, Call.waits, Bool.false_eq_true, if_false] at hs
    cases hs
    exact .inl hq
  | yield =>
    simp only [stepFree, byProc, hc] at hs
    cases hs
    exact .inl hq
  | wakeup chan =>
    cases hs
    exact .inl hq
  | schedule =>
    rw [call_schedule hs]
    exact .inl hq
  | _ => simp [stepFree, byUser, byProc, hc, hold] at hs

/-- The end of `exec` releases the other threads of the process. -/
theorem KernelInv.exec_frees (h : KernelInv D W k) (hc : k.cpuProc = some c)
    (hs : Thread.step k .execFinish = .ok k') (hm : Runs k.view m c) (hq : Member k.view m q)
    (hqc : q ≠ c) : (k'.view q).life = .unused := by
  rw [Thread.step] at hs
  split at hs
  · cases hs
  obtain ⟨c', hc', hs⟩ := byProc_ok hs
  cases hc.symm.trans hc'
  split at hs
  · split at hs
    · obtain ⟨m', d, _, hrel, _⟩ := h.execFinish_ok hc hs
      cases Option.some.inj (hm.2.symm.trans hrel.run.2)
      rw [hrel.freed q hq hqc]
      rfl
    · cases hs
  · cases hs

/-- At the end of `exec` the caller is the only thread of its process. -/
theorem KernelInv.exec_alone (h : KernelInv D W k) (hc : k.cpuProc = some c)
    (hs : Thread.step k .execFinish = .ok k') (hq : Member k'.view c q) : q = c := by
  have hact := h.cpu c hc
  rw [Thread.step] at hs
  split at hs
  · cases hs
  obtain ⟨c', hc', hs⟩ := byProc_ok hs
  cases hc.symm.trans hc'
  split at hs
  · split at hs
    · obtain ⟨m, d, _, hrel, _⟩ := h.execFinish_ok hc hs
      by_contra hqc
      by_cases hmem : Member k.view m q
      · refine not_live_of_unused ?_ hq.1
        rw [hrel.freed q hmem hqc]
        rfl
      · rw [Member, Live, hrel.rest q hmem] at hq
        -- a thread that was not a main thread before had no threads
        have hmc : (k.view c).main ≠ some c := fun hmc => by
          cases Option.some.inj (hmc.symm.trans hrel.run.2)
          exact hmem hq
        exact h.inv.no_members (by rw [hact]; simp) (.inl hmc) hq
    · cases hs
  · cases hs

/-- An `exec` within the limit goes on. -/
theorem execCommit_goes {d sz : Nat} (hc : k.cpuProc = some c)
    (hlim : ∀ m ∈ (k.proc c).mainThread, ¬ overLimit k m sz)
    (hs : step k (.execCommit d sz) = .ok k') : (k'.call c).execs = true := by
  rw [step] at hs
  split at hs
  · cases hs
  obtain ⟨c', hc', _, hs⟩ := byUser_ok hs
  cases hc.symm.trans hc'
  rw [execCommit] at hs
  split at hs
  · cases hs
  · obtain ⟨k₁, hk₁, hs⟩ := bind_eq_ok.mp hs
    obtain ⟨_, rfl⟩ := newDir_ok hk₁
    obtain ⟨m, hm, hs⟩ := bind_eq_ok.mp hs
    have hm' : (k.proc c).mainThread = some m := by
      have := deref_ok hm
      rwa [setProc_self] at this
    split at hs
    · rename_i hover
      refine absurd ?_ (hlim m hm')
      rw [overLimit] at hover ⊢
      by_cases hmc : m = c
      · subst hmc
        rwa [setProc_self] at hover
      · rwa [setProc_other hmc] at hover
    · cases hs
      simp [Kernel.setCall, Kernel.setWalk, Call.execs]

/-! ### Sizes -/

/-- The threads of a process have the same size, unless one of them is inside `exec`. -/
def SameSize (k : Kernel) : Prop :=
  ∀ m q, Runs k.view m m → (∀ p, Member k.view m p → (k.call p).execs = false) →
    Member k.view m q → (k.proc q).sz = (k.proc m).sz

/-- A process one of whose threads was inside `exec` before a step has a thread inside `exec`
    behind it. -/
theorem KernelInv.exec_before (h : KernelInv D W k) (h' : KernelInv D W k')
    (hch : Change k e k'.view) (hs : Thread.step k e = .ok k') (hm : Runs k.view m m)
    (hm' : Runs k'.view m m) (hne : ¬ (k.cpuProc = some m ∧ e = .execFinish))
    (hexec : ∀ p, Member k'.view m p → (k'.call p).execs = false) (hp : Member k.view m p) :
    (k.call p).execs = false := by
  by_contra hx
  rw [Bool.not_eq_false] at hx
  have hact : (k.view p).life = .active := h.inv.inCall p fun hu => by rw [hu] at hx; cases hx
  have hexecs : k.cpuProc = some p → e = .execFinish → False := fun hc hee => by
    subst hee
    by_cases hpm : p = m
    · exact hne ⟨hpm ▸ hc, rfl⟩
    · have := h.exec_frees hc hs ⟨hact, hp.2⟩ ⟨.inl hm.1, hm.2⟩ (Ne.symm hpm)
      rw [hm'.1] at this
      cases this
  rcases exec_stays hs hx with hst | hu | ⟨hc, hee⟩
  · have hact' : (k'.view p).life = .active := h'.inv.inCall p fun hu => by
      rw [hu] at hst; cases hst
    have hmain : (k'.view p).main = some m := by
      cases hch.slot h p with
      | stays _ hmain => rw [hmain]; exact hp.2
      | dead hd => exact absurd hp.1 hd
      | freed _ hu => rw [hact'] at hu; cases hu
      | ended _ _ heq => rw [heq] at hact'; cases hact'
      | started hnew => exact absurd hp.1 (not_live_of_embryo hnew.life)
      | created _ _ _ _ hemb => exact absurd hp.1 (not_live_of_embryo hemb)
      | replaced hc hee => exact (hexecs hc hee).elim
    rw [hexec p ⟨.inl hact', hmain⟩] at hst
    cases hst
  · have hu' : (k'.view p).life = .unused := by simp [Kernel.view, Proc.view, hu, ProcState.life]
    exact hne (hch.freed_main (.inr hact) hm hp hu' hm')
  · exact hexecs hc hee

/-- A thread of the process of `m` was one before the step, or is `m`, or was created by it. -/
theorem KernelInv.member_before (h : KernelInv D W k) (hch : Change k e k'.view)
    (hq : Member k'.view m q) : Member k.view m q ∨ q = m ∨
      ∃ c, k.cpuProc = some c ∧ Runs k.view m c ∧ (∃ ok, e = .createFinish ok) ∧
        k.call c = .create m q := by
  cases hch.slot h q with
  | stays hlife hmain =>
    rw [Member, Live, hlife, hmain] at hq
    exact .inl hq
  | dead _ hd => exact absurd hq.1 hd
  | freed _ hu => exact absurd hq.1 (not_live_of_unused hu)
  | ended hc _ heq =>
    rw [Member, heq] at hq
    exact .inl ⟨.inl (h.cpu q hc), hq.2⟩
  | started hnew heq => exact .inr (.inl (Option.some.inj (by rw [← hq.2, heq, ← hnew.main])))
  | created c m' hc hm _ heq _ hee hcall =>
    have hmm : m' = m := Option.some.inj (by rw [← hq.2, heq])
    subst hmm
    exact .inr (.inr ⟨c, hc, hm, hee, hcall⟩)
  | replaced _ _ heq => exact .inr (.inl (Option.some.inj (by rw [← hq.2, heq])))

/-- The sizes that `sbrk` and `thread_create` set in all threads of a process. -/
theorem SetsSz.same {S : Slot → Prop} {sz : Nat} (h : SetsSz k k' S sz) (hqm : S q ↔ S m)
    (hsz : (k.proc q).sz = (k.proc m).sz) : (k'.proc q).sz = (k'.proc m).sz := by
  rcases h.sz q with ⟨hq, heq⟩ | ⟨hq, heq⟩
  · rcases h.sz m with ⟨_, hem⟩ | ⟨hm, _⟩
    · rw [heq, hem]
    · exact absurd (hqm.mp hq) hm
  · rcases h.sz m with ⟨hm, _⟩ | ⟨_, hem⟩
    · exact absurd (hqm.mpr hm) hq
    · rw [heq, hem, hsz]

/-- A new thread has the size of the process. -/
theorem KernelInv.created_size (h : KernelInv D W k) (hc : k.cpuProc = some c)
    (hcall : k.call c = .create m q) {ok : Bool} (hs : Thread.step k (.createFinish ok) = .ok k')
    (hlive : Live k'.view q) : ¬ overLimit k m (stackSize k m ok) ∧
      SetsSz k k' (fun p => Member k.view m p ∨ p = q) (stackSize k m ok) := by
  rw [Thread.step] at hs
  split at hs
  · cases hs
  obtain ⟨c', hc', hs⟩ := byProc_ok hs
  cases hc.symm.trans hc'
  split at hs
  · rename_i m' np hcall'
    cases hcall.symm.trans hcall'
    rcases h.kept_createFinish hc hcall hs with ⟨_, hd⟩ | ⟨_, hd, _⟩ | ⟨hlim, _, hset⟩
    · exact absurd hlive hd
    · exact absurd hlive hd
    · exact ⟨hlim, hset⟩
  · cases hs

/-- The threads of a process that were there before a step that sets sizes. -/
theorem KernelInv.same_size (h : KernelInv D W k) (he : KeepsGroups k e)
    (hs : Thread.step k e = .ok k') (hfree : k'.ptableLocked = false) (hq : Member k.view m q)
    (hm : Member k.view m m) (hsz : (k.proc q).sz = (k.proc m).sz)
    (hexec : ∀ d sz, e = .execCommit d sz → ∀ c ∈ k.cpuProc, (k.proc c).mainThread ≠ some m) :
    (k'.proc q).sz = (k'.proc m).sz := by
  have hset : ∀ {p : Slot} {w : Kept}, k'.kept = Function.update k.kept p w →
      w.sz = (k.proc p).sz → (k'.proc q).sz = (k'.proc m).sz := fun {p} _ heq hw => by
    have hkeep : ∀ q, (k'.proc q).sz = (k.proc q).sz := fun q => by
      rw [sz_of_update heq q]
      split
      · rename_i hqp
        rw [hqp, hw]
      · rfl
    rw [hkeep, hkeep, hsz]
  have hother : ∀ {m' : Slot}, Member k.view m' q ↔ Member k.view m' m := fun {m'} => by
    refine ⟨fun hh => ?_, fun hh => ?_⟩
    · rw [Option.some.inj (hh.2.symm.trans hq.2)]; exact hm
    · rw [Option.some.inj (hh.2.symm.trans hm.2)]; exact hq
  cases h.step_kept he hs with
  | same heq => rw [sz_of_kept (congrFun heq q), sz_of_kept (congrFun heq m), hsz]
  | allocated p _ heq => exact hset heq rfl
  | forked c m' np _ hcall _ heq =>
    have hnew : (k.call c).newSlot = some np := by rw [hcall]; rfl
    rw [sz_of_update heq q, sz_of_update heq m, if_neg (h.inv.new_ne hnew hq.1).symm,
      if_neg (h.inv.new_ne hnew hm.1).symm, hsz]
  | created c m' np ok _ _ hcall _ _ hS =>
    have hnew : (k.call c).newSlot = some np := by rw [hcall]; rfl
    refine hS.same ?_ hsz
    rw [hother, or_iff_left (h.inv.new_ne hnew hq.1).symm, or_iff_left (h.inv.new_ne hnew hm.1).symm]
  | leaked c m' np ok _ _ _ _ _ hlocked => rw [hfree] at hlocked; cases hlocked
  | stopped c r _ _ _ heq => exact hset heq rfl
  | joined c m' p _ _ _ _ _ _ heq => exact hset heq rfl
  | committed c d sz hee hc _ heq =>
    have hc' := hexec d sz hee c hc
    have hqc : q ≠ c := fun hqc => hc' (hqc ▸ hq.2)
    have hmc : m ≠ c := fun hmc => hc' (hmc ▸ hm.2)
    rw [sz_of_update heq q, sz_of_update heq m, if_neg hqc, if_neg hmc, hsz]
  | replaced c _ _ heq => exact hset heq rfl
  | grown c m' addr n ok sz _ _ _ _ _ hS => exact hS.same hother hsz
  | limited p m' pid limit _ _ _ _ _ heq => exact hset heq rfl
  | scheduled p m' cur t _ _ _ _ heq => exact hset heq rfl

/-- A step after which no thread of a process is inside `exec` leaves the process with one size. -/
theorem SameSize.step (hsz : SameSize k) (h : KernelInv D W k) (h' : KernelInv D W k')
    (he : KeepsGroups k e) (hs : Thread.step k e = .ok k') (hfree : k'.ptableLocked = false)
    (hlim : ∀ d sz, e = .execCommit d sz → ∀ c ∈ k.cpuProc, ∀ m ∈ (k.proc c).mainThread,
      ¬ overLimit k m sz) : SameSize k' := by
  intro m q hm hexec hq
  have hch := h.step_change he hs
  by_cases halone : k.cpuProc = some m ∧ e = .execFinish
  · obtain ⟨hc, rfl⟩ := halone
    rw [h.exec_alone hc hs hq]
  rcases h.main_before hch hm with hm₀ | hnew | hx
  · have hmm : Member k.view m m := ⟨.inl hm₀.1, hm₀.2⟩
    have hold : ∀ p, Member k.view m p → (k.proc p).sz = (k.proc m).sz := fun p hp =>
      hsz m p hm₀ (fun p hp => h.exec_before h' hch hs hm₀ hm halone hexec hp) hp
    -- the caller of an `exec` within the limit would be inside `exec` now
    have hcommit : ∀ d sz, e = .execCommit d sz → ∀ c ∈ k.cpuProc,
        (k.proc c).mainThread ≠ some m := fun d sz hee c hc hcm => by
      subst hee
      have hgoes := execCommit_goes hc (hlim d sz rfl c hc) hs
      have hact := h'.inv.inCall c fun hu => by rw [hu] at hgoes; cases hgoes
      refine absurd (hexec c ⟨.inl hact, ?_⟩) (by rw [hgoes]; simp)
      cases hch.slot h c with
      | stays _ hmain => rw [hmain]; exact hcm
      | dead hd => exact absurd (.inl (h.cpu c hc)) hd
      | freed _ hu => rw [hact] at hu; cases hu
      | ended _ _ heq => rw [heq] at hact; cases hact
      | started hnew => exact absurd (.inl (h.cpu c hc)) (not_live_of_embryo hnew.life)
      | created _ _ _ _ hemb => exact absurd (.inl (h.cpu c hc)) (not_live_of_embryo hemb)
      | replaced _ hee => cases hee
    rcases h.member_before hch hq with hq₀ | rfl | ⟨c, hc, _, ⟨ok, rfl⟩, hcall⟩
    · exact h.same_size he hs hfree hq₀ hmm (hold q hq₀) hcommit
    · rfl
    · obtain ⟨_, hS⟩ := h.created_size hc hcall hs hq.1
      rcases hS.sz q with ⟨_, hszq⟩ | ⟨hn, _⟩
      · rcases hS.sz m with ⟨_, hszm⟩ | ⟨hn, _⟩
        · rw [hszq, hszm]
        · exact absurd (.inl hmm) hn
      · exact absurd (.inr rfl) hn
  · -- a new process has one thread
    rcases h.member_before hch hq with hq₀ | rfl | ⟨c, hc, hm', _⟩
    · exact absurd hq₀ (h.new_alone hnew)
    · rfl
    · obtain ⟨_, hlead, _⟩ := h.inv.leader_of_active hm'.1 hm'.2
      exact absurd hlead (h.new_alone hnew)
  · exact absurd hx halone

/-- `sbrk` leaves a process within its limit. -/
theorem newSize_le {n : Int} {ok : Bool} {sz : Nat} (h : newSize k m n ok = some sz)
    (hlim : 0 < (k.proc m).memoryLimit) (hm : (k.proc m).sz ≤ (k.proc m).memoryLimit) :
    sz ≤ (k.proc m).memoryLimit := by
  rw [newSize] at h
  split_ifs at h with hpos hover hzero hneg hmin
  · cases h
    rw [overLimit, not_and] at hover
    have hle := hover hlim
    rw [allocuvm]
    split_ifs <;> omega
  · cases h
    exact (min_le_left ..).trans hm
  · cases h
    exact hm

/-! ### Limits -/

/-- The memory limit of a slot changes in `setmemorylimit` only. -/
theorem Resets.memoryLimit (h : Resets k e k') (hne : ∀ pid limit, e ≠ .setmemorylimit pid limit)
    (q : Slot) : (k'.proc q).memoryLimit = (k.proc q).memoryLimit := by
  have hset : ∀ {p : Slot} {w : Kept}, k'.kept = Function.update k.kept p w →
      w.memoryLimit = (k.kept p).memoryLimit →
      (k'.proc q).memoryLimit = (k.proc q).memoryLimit := fun heq hw =>
    kept_of_update Kept.memoryLimit heq fun _ => hw
  have hall : ∀ {S : Slot → Prop} {sz : Nat}, SetsSz k k' S sz →
      (k'.proc q).memoryLimit = (k.proc q).memoryLimit := fun hS =>
    hS.other Kept.memoryLimit (fun _ _ => rfl) q
  cases h with
  | same heq => exact congrArg Kept.memoryLimit (congrFun heq q)
  | allocated p _ heq => exact hset heq rfl
  | forked c m np _ _ _ heq => exact hset heq rfl
  | created c m np ok _ _ _ _ _ hS => exact hall hS
  | leaked c m np ok _ _ _ _ hS => exact hall hS
  | stopped c r _ _ _ heq => exact hset heq rfl
  | joined c m p _ _ _ _ _ _ heq => exact hset heq rfl
  | committed c d sz _ _ _ heq => exact hset heq rfl
  | replaced c _ _ heq => exact hset heq rfl
  | grown c m addr n ok sz _ _ _ _ _ hS => exact hall hS
  | limited p m pid limit he => exact absurd he (hne pid limit)
  | scheduled p m cur t _ _ _ _ heq => exact hset heq rfl

theorem view_setmemorylimit {pid limit : Int} (hs : step k (.setmemorylimit pid limit) = .ok k') :
    k'.view = k.view := by
  rw [step] at hs
  split at hs
  · cases hs
  obtain ⟨c, _, _, hs⟩ := byUser_ok hs
  obtain ⟨r, hr, hs⟩ := bind_eq_ok.mp hs
  rcases setmemorylimit_ok hr with rfl | ⟨p, m, _, _, _, _, _, _, rfl⟩
  · cases hs; exact view_ret _
  · cases hs; rw [view_ret]; exact view_setProc_eq rfl

/-- A `setmemorylimit(pid, limit)` that has found the slot `p` and set the limit of `m`. -/
structure Limited (k : Kernel) (e : Step) (k' : Kernel) (p m : Slot) (limit : Int) : Prop where
  step : e = .setmemorylimit (k.view p).pid limit
  slot : limitSlot k (k.view p).pid = some p
  main : (k.view p).main = some m
  inUse : (k.view p).life ≠ .unused
  nonneg : 0 ≤ limit
  size : (k.proc p).sz ≤ limit.toNat
  view : k'.view = k.view
  kept : k'.kept = Function.update k.kept m { k.kept m with memoryLimit := limit.toNat }

/-- What is known about the slot that `setmemorylimit` has found. -/
theorem Limited.condition {limit : Int} (h : Limited s.kernel e k' p m limit) (he : InLimit s e) :
    (s.kernel.proc p).mainThread = some p ∧ (0 < limit → Settled s.kernel p) := by
  obtain rfl := h.step
  refine he h.nonneg p h.slot (fun hu => h.inUse ?_) h.size
  simp [Kernel.view, Proc.view, hu, ProcState.life]

/-- A step sets no limit, or the limit of one process. -/
theorem KernelInv.noted (h : KernelInv D W s.kernel) (he : KeepsGroups s.kernel e)
    (hs : Thread.step s.kernel e = .ok k') :
    (noteLimit s e k' = s.limit ∧
      ∀ q, (k'.proc q).memoryLimit = (s.kernel.proc q).memoryLimit) ∨
    ∃ p m limit, Limited s.kernel e k' p m limit ∧
      noteLimit s e k' = Function.update s.limit (s.kernel.view p).pid limit.toNat := by
  by_cases hset : ∃ pid limit, e = .setmemorylimit pid limit
  · obtain ⟨pid, limit, rfl⟩ := hset
    obtain ⟨c, hc, ⟨heq, hret⟩ | ⟨p, m, hm, rfl, hp, hst, hnn, hsz, hret, heq⟩⟩ :=
      kept_setmemorylimit hs
    · refine .inl ⟨?_, fun q => congrArg Kept.memoryLimit (congrFun heq q)⟩
      simp [noteLimit, hc, hret]
    · refine .inr ⟨p, m, limit, ⟨rfl, hp, hm, fun hu => hst ?_, hnn, hsz,
        view_setmemorylimit hs, heq⟩, ?_⟩
      · exact life_unused hu
      · simp only [noteLimit, hc, hret, if_pos]
        rfl
  · have hne : ∀ pid limit, e ≠ .setmemorylimit pid limit := fun pid limit hee =>
      hset ⟨pid, limit, hee⟩
    refine .inl ⟨?_, (h.step_kept he hs).memoryLimit hne⟩
    unfold noteLimit
    split
    · exact absurd rfl (hne _ _)
    · rfl

/-- The invariant of a run in which the limits are kept. -/
structure LimitInv (s : LimitRun) : Prop where
  kernel : s.kernel.ptableLocked = false → KernelInv False False s.kernel
  sizes : s.kernel.ptableLocked = false → SameSize s.kernel
  pids : PidsOk s.kernel
  fresh : ∀ pid, 0 < s.limit pid → pid < s.kernel.nextpid
  new : ∀ q, (s.kernel.view q).life = .embryo → (s.kernel.view q).main = some q →
    s.limit (s.kernel.view q).pid = 0
  within : ∀ q, Live s.kernel.view q → 0 < s.limit (s.kernel.view q).pid →
    (s.kernel.proc q).sz ≤ s.limit (s.kernel.view q).pid
  inForce : ∀ m, Leader s.kernel.view m → 0 < s.limit (s.kernel.view m).pid →
    (s.kernel.proc m).memoryLimit = s.limit (s.kernel.view m).pid

/-- A thread after a step was one before, or is the child of a `fork`, or was created. -/
theorem KernelInv.live_before (h : KernelInv D W k) (hch : Change k e k'.view)
    (hq : Live k'.view q) : (Live k.view q ∧ (k'.view q).pid = (k.view q).pid) ∨
      (NewProc k.view q ∧ (k'.view q).pid = (k.view q).pid) ∨
      ∃ c m, k.cpuProc = some c ∧ Leader k.view m ∧ (∃ ok, e = .createFinish ok) ∧
        k.call c = .create m q ∧ (k'.view q).pid = (k.view m).pid ∧
        (k'.view q).main = some m ∧ m ≠ q := by
  cases hch.slot h q with
  | stays hlife _ hpid =>
    rw [Live, hlife] at hq
    exact .inl ⟨hq, hpid⟩
  | dead _ hd => exact absurd hq hd
  | freed _ hu => exact absurd hq (not_live_of_unused hu)
  | ended hc _ heq => exact .inl ⟨.inl (h.cpu q hc), by rw [heq]⟩
  | started hnew heq => exact .inr (.inl ⟨hnew, by rw [heq]⟩)
  | created c m hc hm hemb heq _ hee hcall =>
    obtain ⟨_, hlead, _⟩ := h.inv.leader_of_active hm.1 hm.2
    have hmq : m ≠ q := fun hmq => not_live_of_embryo hemb (hmq ▸ hlead.1)
    exact .inr (.inr ⟨c, m, hc, hlead, hee, hcall, by rw [heq], by rw [heq], hmq⟩)
  | replaced hc _ heq => exact .inl ⟨.inl (h.cpu q hc), by rw [heq]⟩

/-- Limits are set for identifiers that were given out. -/
theorem LimitInv.fresh_step (h : LimitInv s) (hk : KernelInv D W s.kernel)
    (he : KeepsGroups s.kernel e) (hs : Thread.step s.kernel e = .ok k') {pid : Int}
    (hlim : 0 < noteLimit s e k' pid) : pid < k'.nextpid := by
  have hle := nextpid_le hs
  rcases hk.noted he hs with ⟨heq, _⟩ | ⟨p, m, limit, hset, heq⟩
  · rw [heq] at hlim
    exact lt_of_lt_of_le (h.fresh pid hlim) hle
  · rw [heq] at hlim
    by_cases hp : pid = (s.kernel.view p).pid
    · rw [hp]
      exact lt_of_lt_of_le (h.pids.lt p hset.inUse) hle
    · rw [Function.update_of_ne hp] at hlim
      exact lt_of_lt_of_le (h.fresh pid hlim) hle

/-- A process that is not started yet has no limit. -/
theorem LimitInv.new_step (h : LimitInv s) (hk : KernelInv D W s.kernel) (he : KeepsLimit s e)
    (hs : Thread.step s.kernel e = .ok k') (hq : (k'.view q).life = .embryo)
    (hmain : (k'.view q).main = some q) : noteLimit s e k' (k'.view q).pid = 0 := by
  have hch := hk.step_change he.1 hs
  have hhead : Head k'.view q := ⟨by rw [hq]; simp, hmain⟩
  rcases hk.embryo_before hch hq with hold | ⟨halloc, hfirst⟩
  · have hhead₀ : Head s.kernel.view q ∧ (k'.view q).pid = (s.kernel.view q).pid := by
      rcases hk.head_before hch hhead with hh | ⟨_, hfirst, _⟩ | ⟨hc, _⟩
      · exact hh
      · rw [firstUnused_spec hfirst] at hold; cases hold
      · rw [hk.cpu q hc] at hold; cases hold
    obtain ⟨hhead₀, hpid⟩ := hhead₀
    have hzero := h.new q hold hhead₀.2
    rw [hpid]
    rcases hk.noted he.1 hs with ⟨heq, _⟩ | ⟨p, m, limit, hset, heq⟩
    · rw [heq, hzero]
    · rw [heq]
      by_cases hpq : (s.kernel.view q).pid = (s.kernel.view p).pid
      · -- the slot that was found is `q` itself, which was not started
        obtain ⟨hmain, hsettled⟩ := hset.condition he.2
        have hqp : q = p := h.pids.heads q p hhead₀ ⟨hset.inUse, hmain⟩ hpq
        subst hqp
        rw [Function.update_self, Int.toNat_eq_zero]
        by_contra hpos
        exact (hsettled (by omega)).1 (life_embryo hold)
      · rw [Function.update_of_ne hpq, hzero]
  · have hpid : (k'.view q).pid = s.kernel.nextpid := by
      rcases hk.head_before hch hhead with ⟨hh, _⟩ | ⟨_, _, hpid⟩ | ⟨hc, _⟩
      · exact absurd (firstUnused_spec hfirst) hh.1
      · exact hpid
      · have := hk.cpu q hc
        rw [firstUnused_spec hfirst] at this
        cases this
    rcases hk.noted he.1 hs with ⟨heq, _⟩ | ⟨p, m, limit, hset, _⟩
    · rw [heq, hpid]
      by_contra hne
      have := h.fresh _ (Nat.pos_of_ne_zero hne)
      omega
    · rw [hset.step] at halloc
      cases halloc

/-- The limit of a process as its threads see it. -/
theorem LimitInv.main_limit (h : LimitInv s) (hk : KernelInv D W s.kernel)
    (hm : Leader s.kernel.view m) (hq : Member s.kernel.view m q)
    (hpos : 0 < s.limit (s.kernel.view q).pid) :
    (s.kernel.proc m).memoryLimit = s.limit (s.kernel.view q).pid ∧
      (s.kernel.proc m).sz ≤ s.limit (s.kernel.view q).pid := by
  have hpid := (hk.inv.groups m).pid hm q hq
  rw [hpid] at hpos ⊢
  exact ⟨h.inForce m hm hpos, h.within m hm.1 hpos⟩

/-- A size that was compared with the limit of the main thread. -/
theorem LimitInv.checked (h : LimitInv s) (hk : KernelInv D W s.kernel)
    (hm : Leader s.kernel.view m) (hq : Member s.kernel.view m q)
    (hpos : 0 < s.limit (s.kernel.view q).pid) {sz : Nat} (hlim : ¬ overLimit s.kernel m sz) :
    sz ≤ s.limit (s.kernel.view q).pid := by
  obtain ⟨heq, _⟩ := h.main_limit hk hm hq hpos
  rw [overLimit, heq, not_and, not_lt] at hlim
  exact hlim hpos

/-- A limit that is set is not below the sizes of the threads of the process. -/
theorem LimitInv.within_set (h : LimitInv s) (hk : KernelInv D W s.kernel)
    (hfree : s.kernel.ptableLocked = false) {limit : Int}
    (hset : Limited s.kernel e k' p m limit) (he : InLimit s e) (hq : Live s.kernel.view q)
    (hpid : (s.kernel.view q).pid = (s.kernel.view p).pid) (hpos : 0 < limit) :
    (s.kernel.proc q).sz ≤ limit.toNat := by
  obtain ⟨hmain, hsettled⟩ := hset.condition he
  obtain ⟨hemb, hexec⟩ := hsettled hpos
  have hhead : Head s.kernel.view p := ⟨hset.inUse, hmain⟩
  have hqp : Member s.kernel.view p q := ⟨hq, h.pids.own q p hq hhead hpid⟩
  refine le_trans (le_of_eq ?_) hset.size
  cases hl : (s.kernel.view p).life with
  | unused => exact absurd hl hset.inUse
  | embryo => exact absurd (life_embryo hl) hemb
  | active => exact h.sizes hfree p q ⟨hl, hmain⟩ (fun t ht => hexec t ht.2) hqp
  | zombie => rw [(hk.inv.groups p).ended ⟨.inr hl, hmain⟩ hl q hqp]

/-- No step takes a thread above the limit of its process. -/
theorem LimitInv.within_step (h : LimitInv s) (hk : KernelInv D W s.kernel) (he : KeepsLimit s e)
    (hs : Thread.step s.kernel e = .ok k') (hq : Live k'.view q)
    (hpos : 0 < noteLimit s e k' (k'.view q).pid) :
    (k'.proc q).sz ≤ noteLimit s e k' (k'.view q).pid := by
  have hch := hk.step_change he.1 hs
  rcases hk.noted he.1 hs with ⟨heq, _⟩ | ⟨p, m, limit, hset, heq⟩
  · rw [heq] at hpos ⊢
    rcases hk.live_before hch hq with ⟨hlive, hpid⟩ | ⟨hnew, hpid⟩ |
      ⟨c, m, hc, hlead, ⟨ok, rfl⟩, hcall, hpid, _⟩
    · rw [hpid] at hpos ⊢
      have hold := h.within q hlive hpos
      have hkeep : ∀ {p : Slot} {w : Kept}, k'.kept = Function.update s.kernel.kept p w →
          (q = p → w.sz = (s.kernel.proc p).sz) →
          (k'.proc q).sz ≤ s.limit (s.kernel.view q).pid := fun heq hw => by
        rw [sz_of_update heq q]
        split
        · rename_i hqp
          rw [hw hqp, ← hqp]
          exact hold
        · exact hold
      have hcheck : ∀ {m : Slot} {S : Slot → Prop} {sz : Nat}, Leader s.kernel.view m →
          (S q → Member s.kernel.view m q) → SetsSz s.kernel k' S sz →
          (Member s.kernel.view m q → sz ≤ s.limit (s.kernel.view q).pid) →
          (k'.proc q).sz ≤ s.limit (s.kernel.view q).pid := fun hm hS hsets hle => by
        rcases hsets.sz q with ⟨hq, hsz⟩ | ⟨_, hsz⟩
        · rw [hsz]; exact hle (hS hq)
        · rw [hsz]; exact hold
      have hmain : ∀ {c m : Slot}, s.kernel.cpuProc = some c → (s.kernel.proc c).mainThread = some m →
          Leader s.kernel.view m := fun hc hm =>
        (hk.inv.leader_of_active (hk.cpu _ hc) hm).2.1
      have hcreate : ∀ {c m np : Slot}, s.kernel.cpuProc = some c →
          s.kernel.call c = .create m np → Leader s.kernel.view m ∧ q ≠ np :=
        fun {c m np} hc hcall => by
          have hok := hk.inv.calls c
          rw [hcall] at hok
          exact ⟨hmain hc hok.2, (hk.inv.new_ne (by rw [hcall]; rfl) hlive).symm⟩
      cases hk.step_kept he.1 hs with
      | same heq => rw [sz_of_kept (congrFun heq q)]; exact hold
      | allocated p _ heq => exact hkeep heq fun _ => rfl
      | forked c m np _ hcall _ heq =>
        have hnew : (s.kernel.call c).newSlot = some np := by rw [hcall]; rfl
        exact hkeep heq fun hqn => absurd hqn (hk.inv.new_ne hnew hlive).symm
      | created c m np ok _ hc hcall hlim _ hS =>
        obtain ⟨hm, hqn⟩ := hcreate hc hcall
        refine hcheck hm (fun hq => hq.resolve_right hqn) hS fun hmem => ?_
        exact h.checked hk hm hmem hpos hlim
      | leaked c m np ok _ hc hcall hlim hS _ =>
        obtain ⟨hm, hqn⟩ := hcreate hc hcall
        refine hcheck hm (fun hq => ?_) hS fun hmem => h.checked hk hm hmem hpos hlim
        rw [hq.resolve_right hqn]
        exact hm
      | stopped c r _ _ _ heq => exact hkeep heq fun _ => rfl
      | joined c m p _ _ _ _ _ _ heq => exact hkeep heq fun _ => rfl
      | committed c d sz hee hc _ heq =>
        rw [sz_of_update heq q]
        split
        · rename_i hqc
          subst hqc hee
          obtain ⟨m, hm, hlead, _⟩ := hk.cpu_main hc
          exact h.checked hk hlead ⟨hlive, hm.2⟩ hpos (he.2 q hc m hm.2)
        · exact hold
      | replaced c _ _ heq => exact hkeep heq fun _ => rfl
      | grown c m addr n ok sz _ hc _ hm hsz hS =>
        refine hcheck (hmain hc hm) id hS fun hmem => ?_
        obtain ⟨heq, hle⟩ := h.main_limit hk (hmain hc hm) hmem hpos
        rw [← heq] at hpos hle ⊢
        exact newSize_le hsz hpos hle
      | limited p m pid limit _ _ _ _ _ heq => exact hkeep heq fun _ => rfl
      | scheduled p m cur t _ _ _ _ heq => exact hkeep heq fun _ => rfl
    · rw [hpid, h.new q hnew.life hnew.main] at hpos
      omega
    · rw [hpid] at hpos ⊢
      obtain ⟨hlim, hS⟩ := hk.created_size hc hcall hs hq
      rcases hS.sz q with ⟨_, hsz⟩ | ⟨hn, _⟩
      · rw [hsz]
        exact h.checked hk hlead hlead hpos hlim
      · exact absurd (.inr rfl) hn
  · have hsz : (k'.proc q).sz = (s.kernel.proc q).sz :=
      kept_of_update Kept.sz hset.kept fun _ => rfl
    rw [heq] at hpos ⊢
    rw [hset.view] at hq hpos ⊢
    rw [hsz]
    by_cases hpid : (s.kernel.view q).pid = (s.kernel.view p).pid
    · rw [hpid, Function.update_self] at hpos ⊢
      exact h.within_set hk (free_of_step hs) hset he.2 hq hpid (by omega)
    · rw [Function.update_of_ne hpid] at hpos ⊢
      exact h.within q hq hpos

/-- No step puts the limit of a process out of force. -/
theorem LimitInv.inForce_step (h : LimitInv s) (hk : KernelInv D W s.kernel)
    (he : KeepsLimit s e) (hs : Thread.step s.kernel e = .ok k') (hm : Leader k'.view m)
    (hpos : 0 < noteLimit s e k' (k'.view m).pid) :
    (k'.proc m).memoryLimit = noteLimit s e k' (k'.view m).pid := by
  have hch := hk.step_change he.1 hs
  rcases hk.noted he.1 hs with ⟨heq, hlim⟩ | ⟨p, m₀, limit, hset, heq⟩
  · rw [heq] at hpos ⊢
    rw [hlim]
    rcases hk.live_before hch hm.1 with ⟨hlive, hpid⟩ | ⟨hnew, hpid⟩ |
      ⟨c, m', _, _, _, _, _, hmain, hne⟩
    · rcases hk.head_before hch hm.head with ⟨hhead, _⟩ | ⟨_, hfirst, _⟩ | ⟨hc, hee, _⟩
      · rw [hpid] at hpos ⊢
        exact h.inForce m ⟨hlive, hhead.2⟩ hpos
      · exact (unused_of_first hfirst hlive).elim
      · -- the caller of `exec` is the main thread now
        subst hee
        rw [hpid] at hpos ⊢
        obtain ⟨m', hm', hlead, hpid'⟩ := hk.cpu_main hc
        rw [he.2 m hc m' hm'.2 hpos, (h.main_limit hk hlead ⟨hlive, hm'.2⟩ hpos).1]
    · rw [hpid, h.new m hnew.life hnew.main] at hpos
      omega
    · -- a thread that was created is not a main thread
      exact absurd (Option.some.inj (hmain.symm.trans hm.2)) hne
  · have hself : m₀ = p := Option.some.inj (hset.main.symm.trans (hset.condition he.2).1)
    subst hself
    rw [heq] at hpos ⊢
    rw [hset.view] at hm hpos ⊢
    have hkept : (k'.proc m).memoryLimit = (k'.kept m).memoryLimit := rfl
    rw [hkept, hset.kept]
    by_cases hpid : (s.kernel.view m).pid = (s.kernel.view m₀).pid
    · have hmm : m = m₀ := h.pids.heads m m₀ hm.head ⟨hset.inUse, hset.main⟩ hpid
      subst hmm
      rw [Function.update_self, Function.update_self]
    · have hmm : m ≠ m₀ := fun hmm => hpid (by rw [hmm])
      rw [Function.update_of_ne hmm]
      rw [Function.update_of_ne hpid] at hpos ⊢
      exact h.inForce m hm hpos

/-! ### Runs -/

/-- One step of a run in which the limits are kept. -/
theorem LimitInv.step {t : LimitRun} (h : LimitInv s) (he : KeepsLimit s e)
    (hs : limitStep s e = .ok t) : LimitInv t := by
  obtain ⟨k', hk', hs⟩ := bind_eq_ok.mp hs
  cases hs
  have hfree := free_of_step hk'
  have hk := h.kernel hfree
  have hstep : k'.ptableLocked = false → KernelInv False False k' := fun hfree' =>
    hk.step he.1 (fun hD => hD.elim) (fun hW => hW.elim) hk' hfree'
  refine ⟨hstep, fun hfree' => ?_, h.pids.step hk he.1 hk', fun pid => h.fresh_step hk he.1 hk',
    fun q => h.new_step hk he hk', fun q => h.within_step hk he hk',
    fun m => h.inForce_step hk he hk'⟩
  refine (h.sizes hfree).step hk (hstep hfree') he.1 hk' hfree' fun d sz hee => ?_
  subst hee
  exact he.2

/-- At the start no limit is set. -/
theorem LimitInv.init (h : LimitInit s) : LimitInv s := by
  obtain ⟨hinit, hlimit⟩ := h
  obtain ⟨d, hproc, _⟩ := init_eq hinit
  have hzero : ∀ pid, ¬ 0 < s.limit pid := fun pid => by simp [hlimit]
  refine ⟨fun hfree => ?_, fun _ m q hm _ hq => ?_, .init hinit, fun pid hp => absurd hp (hzero pid),
    fun q _ _ => by rw [hlimit], fun q _ hp => absurd hp (hzero _), fun m _ hp => absurd hp (hzero _)⟩
  · exact .of_reachable (G := KeepsGroups) (fun _ _ he => he) (fun hD => hD.elim)
      (fun hW => hW.elim) (.start hinit) hfree
  · -- the first process is the only one
    have honly : ∀ {i : Slot}, Live s.kernel.view i → i = 0 := fun {i} hi => by
      by_contra hne
      refine not_live_of_unused ?_ hi
      rw [Kernel.view, hproc, Function.update_of_ne hne]
      rfl
    rw [honly hq.1, honly (.inl hm.1)]

/-- In every run whose steps meet the condition, every thread of a process with a limit is within
    the limit after every step, and the limit is the one that the next checks will read. -/
theorem limit_holds (h : Reachable LimitInit (Steps limitStep KeepsLimit) s) :
    (∀ q, IsThread s.kernel q → 0 < s.limit (s.kernel.proc q).pid →
      (s.kernel.proc q).sz ≤ s.limit (s.kernel.proc q).pid) ∧
    (s.kernel.ptableLocked = false → ∀ q, IsThread s.kernel q → (s.kernel.proc q).state ≠ .ZOMBIE →
      0 < s.limit (s.kernel.proc q).pid → ∃ m, (s.kernel.proc q).mainThread = some m ∧
        (s.kernel.proc m).memoryLimit = s.limit (s.kernel.proc q).pid) := by
  have hinv : LimitInv s := by
    refine h.invariant (fun _ => .init) fun s t hI hst => ?_
    obtain ⟨e, he, hs⟩ := hst
    exact hI.step he hs
  refine ⟨fun q hq hpos => hinv.within q hq.live hpos, fun hfree q hq hz hpos => ?_⟩
  have hk := hinv.kernel hfree
  have hact : (s.kernel.view q).life = .active := by
    rcases hq.live with hact | hzombie
    · exact hact
    · exact absurd (life_zombie hzombie) hz
  obtain ⟨m, hm⟩ := (hk.inv.slots q).main hq.live
  obtain ⟨hmem, hlead, _⟩ := hk.inv.leader_of_active hact hm
  exact ⟨m, hm, (hinv.main_limit hk hlead hmem hpos).1⟩

/-- A process with two threads gets a limit, grows, is refused a third thread, and calls `exec`. -/
theorem limit_holds_exec : ∃ s : LimitRun, s.limit (s.kernel.proc 1).pid = 20000 ∧
    (s.kernel.proc 1).sz = 10000 ∧ (s.kernel.proc 1).sz ≤ s.limit (s.kernel.proc 1).pid ∧
    ∃ m, (s.kernel.proc 1).mainThread = some m ∧
      (s.kernel.proc m).memoryLimit = s.limit (s.kernel.proc 1).pid := by
  obtain ⟨k₀, h₀⟩ : ∃ k, userinit boot 7 = .ok k := ⟨_, rfl⟩
  have hstart : Reachable LimitInit (Steps limitStep KeepsLimit) ⟨k₀, fun _ => 0⟩ :=
    .start ⟨⟨7, h₀⟩, rfl⟩
  obtain ⟨s, hs, hp⟩ := reachable_of_reachTest limitStep KeepsLimit
    (fun s => decide (s.limit (s.kernel.proc 1).pid = 20000 ∧ (s.kernel.proc 1).sz = 10000 ∧
      s.kernel.ptableLocked = false ∧ IsThread s.kernel 1 ∧ (s.kernel.proc 1).state ≠ .ZOMBIE))
    (twoThreads ++ [.setmemorylimit 2 20000, .sbrk 5000, .growproc true, .createAlloc true,
      .createFinish true, .execCommit 9 10000] ++ List.replicate 21 .closeFiles ++ [.execFinish])
    hstart (by cases h₀; decide +kernel)
  obtain ⟨hlim, hsz, hfree, hthread, hz⟩ := of_decide_eq_true hp
  have hpos : 0 < s.limit (s.kernel.proc 1).pid := by rw [hlim]; omega
  obtain ⟨hwithin, hforce⟩ := limit_holds hs
  exact ⟨s, hlim, hsz, hwithin 1 hthread hpos, hforce hfree 1 hthread hz hpos⟩

/-- An `exec` that fails because of the limit has set the size of its caller above it. -/
theorem limit_exceeded : ∃ s : LimitRun,
    Reachable LimitInit (Steps limitStep fun s e => KeepsGroups s.kernel e) s ∧
    IsThread s.kernel 0 ∧ (s.kernel.proc 0).eax = -1 ∧ 0 < s.limit (s.kernel.proc 0).pid ∧
    ¬ (s.kernel.proc 0).sz ≤ s.limit (s.kernel.proc 0).pid := by
  obtain ⟨k₀, h₀⟩ : ∃ k, userinit boot 7 = .ok k := ⟨_, rfl⟩
  have hstart : Reachable LimitInit (Steps limitStep fun s e => KeepsGroups s.kernel e)
      ⟨k₀, fun _ => 0⟩ := .start ⟨⟨7, h₀⟩, rfl⟩
  obtain ⟨s, hs, hp⟩ := reachable_of_reachTest limitStep (fun s e => KeepsGroups s.kernel e)
    (fun s => decide (IsThread s.kernel 0 ∧ (s.kernel.proc 0).eax = -1 ∧
      0 < s.limit (s.kernel.proc 0).pid ∧
      ¬ (s.kernel.proc 0).sz ≤ s.limit (s.kernel.proc 0).pid))
    [.schedule, .setmemorylimit 1 20000, .execCommit 8 30000] hstart (by cases h₀; decide +kernel)
  exact ⟨s, hs, of_decide_eq_true hp⟩

end Xv6.Thread
