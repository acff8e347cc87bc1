import Xv6.Thread.Slots

namespace Xv6.Thread

open Xv6.Lib

/-!
# Threads — parents

`fork` makes the thread that calls it the parent of the child; `exit` and `thread_exit` pass the
children of the caller to init; a thread has the parent of its process.  The history of a run says
for every slot which thread has forked the process in it, and tells the threads apart that have
used one slot.

* `ParentInv` — what holds in every state of a run that releases no thread with children;
* `parents_active` — then everybody but init has a parent that can reap it.
-/

/-- The machine, the number of times that a slot was taken, and the thread that has forked the
    process of a slot: its slot, and how often that had been taken. -/
structure ParentRun where
  kernel : Kernel
  gen : Slot → Nat
  forker : Slot → Option (Slot × Nat)

/-- `allocproc` takes the first unused slot. -/
def noteGen (s : ParentRun) (e : Step) (p : Slot) : Nat :=
  if e.allocates = true ∧ firstUnused s.kernel = some p then s.gen p + 1 else s.gen p

/-- The caller of `fork` has forked the child; a thread belongs to the process of its main
    thread. -/
def noteForker (s : ParentRun) (e : Step) : Slot → Option (Slot × Nat) :=
  match s.kernel.cpuProc with
  | none => s.forker
  | some c =>
    match e, s.kernel.call c with
    | .forkCopy (some _), .fork np => Function.update s.forker np (some (c, s.gen c))
    | .createFinish _, .create m np => Function.update s.forker np (s.forker m)
    | _, _ => s.forker

/-- One step of the machine with its history. -/
def parentStep (s : ParentRun) (e : Step) : Except Stop ParentRun := do
  let k' ← step s.kernel e
  .ok ⟨k', noteGen s e, noteForker s e⟩

/-- The start of a run. -/
def ParentInit (s : ParentRun) : Prop :=
  Init s.kernel ∧ s.gen = (fun _ => 0) ∧ s.forker = fun _ => none

/-- The slot holds a process or thread that was started. -/
def ProcState.started (st : ProcState) : Prop := st ≠ .UNUSED ∧ st ≠ .EMBRYO

instance (st : ProcState) : Decidable st.started := inferInstanceAs (Decidable (_ ∧ _))

/-- The threads that `exit` and `exec` release have no children, and init is not among them. -/
def Childless (k : Kernel) (e : Step) : Prop :=
  (e = .exit ∨ e = .execFinish) → ∀ c ∈ k.cpuProc, ∀ n : Fin (2 * NPROC), ∀ p ∈ threadAt k c n,
    p ≠ c → (k.proc p).state ≠ .EMBRYO ∧ k.initproc ≠ some p ∧
      ∀ x, (k.proc x).state.started → (k.proc x).parent ≠ some p

/-- The main thread of the process to which `thread_create` adds a thread. -/
def Call.creates : Call → Option Slot
  | .create m _ => some m
  | _ => none

/-- `thread_create` adds a thread to a process, which is not init, while its main thread is still
    there. -/
def MainStays (k : Kernel) (e : Step) : Prop :=
  (∃ ok, e = .createFinish ok) → ∀ c ∈ k.cpuProc, ∀ m ∈ (k.call c).creates,
    (k.proc m).state.started ∧ k.initproc ≠ some m

/-- The condition on the steps of a run. -/
def KeepsParents (s : ParentRun) (e : Step) : Prop := Childless s.kernel e ∧ MainStays s.kernel e

instance (k : Kernel) (e : Step) : Decidable (Childless k e) :=
  inferInstanceAs (Decidable (_ → ∀ c ∈ k.cpuProc, ∀ n : Fin (2 * NPROC), ∀ p ∈ threadAt k c n, _))

instance (k : Kernel) (e : Step) : Decidable (MainStays k e) :=
  inferInstanceAs (Decidable (_ → ∀ c ∈ k.cpuProc, ∀ m ∈ (k.call c).creates, _))

instance (s : ParentRun) (e : Step) : Decidable (KeepsParents s e) :=
  inferInstanceAs (Decidable (_ ∧ _))

/-- The parent of `x` can reap it: it is active, and it is init or the thread that has forked the
    process of `x`. -/
def HasParent (s : ParentRun) (x : Slot) : Prop :=
  ∃ c, (s.kernel.proc x).parent = some c ∧ (s.kernel.proc c).state.active ∧
    (s.kernel.initproc = some c ∨ s.forker x = some (c, s.gen c))

variable {k k' : Kernel} {s s' : ParentRun} {c i np p q x : Slot} {e : Step}

/-! ### Parents and steps -/

theorem ProcState.active.started {st : ProcState} (h : st.active) : st.started := by
  rcases h with rfl | rfl | rfl <;> simp [ProcState.started]

theorem SlotsOk.not_new (h : SlotsOk k) (hp : (k.proc p).state.started) (c : Slot) :
    (k.call c).newSlot ≠ some p := fun hc => hp.2 (h.embryo c p hc)

theorem allocates_other (he : e.allocates = true) : e ≠ .forkRun ∧ e.ends = false := by
  refine ⟨?_, ?_⟩
  · rintro rfl
    cases he
  · cases e <;> first | rfl | cases he

theorem creates_other (he : e.creates = true) : e.ends = false := by
  cases e <;> first | rfl | cases he

theorem joins_other (he : e.joins = true) : e.ends = false := by
  cases e <;> first | rfl | cases he

/-- How the parent of a slot in use comes about: it is the old one, or init after the end of the
    old one; the child of a `fork` keeps the one that was set before, and a new thread has the one
    of its main thread. -/
def ParentOf (k : Kernel) (e : Step) (p : Slot) (o : Option Slot) : Prop :=
  ((k.proc p).state.started ∧ (o = (k.proc p).parent ∨ ∃ c, e.ends = true ∧ k.cpuProc = some c ∧
    (k.proc p).parent = some c ∧ o = k.initproc)) ∨
  (∃ c, e = .forkRun ∧ k.cpuProc = some c ∧ k.call c = .forkCopied p ∧ o = (k.proc p).parent) ∨
  ∃ c m, (∃ ok, e = .createFinish ok) ∧ k.cpuProc = some c ∧ k.call c = .create m p ∧
    o = (k.proc m).parent

theorem SlotsOk.parent_step (h : SlotsOk k) (hs : Thread.step k e = .ok k')
    (hp' : (k'.proc p).state.started) : ParentOf k e p (k'.proc p).parent := by
  have hcpu : k.cpuProc = some p → (k.proc p).state.started := fun hc => (h.cpu p hc).started
  have hold : ∀ {c : Slot} {x : Call}, k.call c = x → x.newSlot = some p →
      ¬ (k.proc p).state.started := fun {c x} hc hx hst => h.not_new hst c (by rw [hc]; exact hx)
  have hassigned := step_assigned hs p
  -- before the process starts, the parent that `fork` has set is kept, and it does not end
  have hcases : (¬ (k'.proc p).state.started ∧ (e = .forkRun → (k'.proc p).parent =
      (k.proc p).parent) ∧ (e.ends = true → k.cpuProc ≠ some p)) ∨
      ParentOf k e p (k'.proc p).parent := by
    show (¬ (k'.core p).state.started ∧ (e = .forkRun → (k'.core p).parent =
      (k.proc p).parent) ∧ _) ∨ ParentOf k e p (k'.core p).parent
    rw [Assigned] at hassigned
    generalize k'.core p = z at hassigned
    induction hassigned with
    | refl =>
      by_cases hst : (k.proc p).state.started
      · exact .inr (.inl ⟨hst, .inl rfl⟩)
      · exact .inl ⟨hst, fun _ => rfl, fun _ hc => hst (hcpu hc)⟩
    | tail _ hassign ih =>
      cases hassign with
      | wake y hy =>
        rcases ih with ⟨hst, _⟩ | ih
        · exact absurd (by rw [hy]; simp [ProcState.started]) hst
        · exact .inr ih
      | alloc _ he _ =>
        obtain ⟨hnot, hends⟩ := allocates_other he
        exact .inl ⟨by simp [ProcState.started], fun hx => absurd hx hnot, fun hx => by
          rw [hends] at hx; cases hx⟩
      | abort _ he _ =>
        obtain ⟨hnot, hends⟩ := allocates_other he
        exact .inl ⟨by simp [ProcState.started], fun hx => absurd hx hnot, fun hx => by
          rw [hends] at hx; cases hx⟩
      | drop _ _ _ _ he =>
        exact .inl ⟨by simp [ProcState.started], fun hx => absurd hx he.2, fun hx => by
          rw [creates_other he.1] at hx; cases hx⟩
      | copy _ c _ hc he =>
        obtain ⟨d, rfl⟩ := he
        rcases ih with ⟨hst, _⟩ | (⟨hst, _⟩ | ⟨_, hx, _⟩ | ⟨_, _, ⟨_, hx⟩, _⟩)
        · exact .inl ⟨hst, fun hx => (by cases hx), fun hx => (by cases hx)⟩
        · exact absurd hst (hold hc rfl)
        · cases hx
        · cases hx
      | start _ c hc hcall he =>
        refine .inr (.inr (.inl ⟨c, he, hc, hcall, ?_⟩))
        subst he
        rcases ih with ⟨_, hpar, _⟩ | (⟨_, hpar | ⟨_, hx, _⟩⟩ | ⟨_, _, _, _, hpar⟩ |
          ⟨_, _, ⟨_, hx⟩, _⟩)
        · exact hpar rfl
        · exact hpar
        · cases hx
        · exact hpar
        · cases hx
      | attach _ c m hc hcall he =>
        obtain ⟨ok, rfl⟩ := he
        rcases ih with ⟨hst, _⟩ | (⟨hst, _⟩ | ⟨_, hx, _⟩ | ⟨_, _, _, _, _, _⟩)
        · exact .inl ⟨hst, fun hx => (by cases hx), fun hx => (by cases hx)⟩
        · exact absurd hst (hold hcall rfl)
        · cases hx
        · exact .inr (.inr (.inr ⟨c, m, ⟨ok, rfl⟩, hc, hcall, rfl⟩))
      | link _ c m hc hcall he hx => exact .inr (.inr (.inr ⟨c, m, he, hc, hcall, hx⟩))
      | free _ he =>
        refine .inl ⟨by simp [ProcState.started], fun hx => ?_, fun hx hc => ?_⟩
        · subst hx
          rcases he with ⟨hx | hx, _⟩ | ⟨hx, _⟩ <;> cases hx
        · rcases he with ⟨_, hne⟩ | ⟨hj, _⟩
          · exact hne hc
          · rw [joins_other hj] at hx; cases hx
      | reap _ _ he _ _ =>
        subst he
        exact .inl ⟨by simp [ProcState.started], fun hx => (by cases hx), fun hx => (by cases hx)⟩
      | passOn y c he hc hy =>
        have hends : e.ends = true := by rcases he with rfl | rfl <;> rfl
        have hnot : e ≠ .forkRun ∧ ∀ ok, e ≠ .createFinish ok := by
          rcases he with rfl | rfl <;> simp
        rcases ih with ⟨hst, _, hne⟩ | (⟨hst, hpar | ⟨c', _, hc', hx, _⟩⟩ | ⟨_, hx, _⟩ |
          ⟨_, _, ⟨_, hx⟩, _⟩)
        · exact .inl ⟨hst, fun hx => absurd hx hnot.1, hne⟩
        · exact .inr (.inl ⟨hst, .inr ⟨c, hends, hc, hpar.symm.trans hy, rfl⟩⟩)
        · exact .inr (.inl ⟨hst, .inr ⟨c', hends, hc', hx, rfl⟩⟩)
        · exact absurd hx hnot.1
        · exact absurd hx (hnot.2 _)
      | die _ _ hc he =>
        have hends : e.ends = true := by rcases he with ⟨rfl, _⟩ | ⟨rfl, _⟩ <;> rfl
        rcases ih with ⟨_, _, hne⟩ | ih
        · exact absurd hc (hne hends)
        · exact .inr ih
      | replace _ _ _ => exact ih
      | rest _ hc _ => exact .inr (.inl ⟨hcpu hc, .inl rfl⟩)
      | run _ _ hy =>
        rcases ih with ⟨hst, _⟩ | ih
        · exact absurd (by rw [hy]; simp [ProcState.started]) hst
        · exact .inr ih
  rcases hcases with ⟨hst, _⟩ | hcases
  · exact absurd hp' hst
  · exact hcases

/-- The parent that `fork` has set in a new slot stays until the child starts. -/
theorem SlotsOk.copied_step (h : SlotsOk k) (hl : ListStarted k e) (hs : Thread.step k e = .ok k')
    (hcall : k.call c = .forkCopied np) : (k'.proc np).parent = (k.proc np).parent ∨
      ∃ c', e.ends = true ∧ k.cpuProc = some c' ∧ (k.proc np).parent = some c' := by
  have hnew : (k.call c).newSlot = some np := by rw [hcall]; rfl
  have hemb := h.embryo c np hnew
  have hcpu : k.cpuProc ≠ some np := fun hc => (h.cpu np hc).started.2 hemb
  have hown : ∀ {c' : Slot} {x : Call}, k.call c' = x → x.newSlot = some np →
      x = .forkCopied np := fun {c' x} hc hx => by
    have hcc := h.unique c' c np (by rw [hc]; exact hx) hnew
    rw [← hc, hcc, hcall]
  have hassigned := step_assigned hs np
  have hleft : (k'.proc np).parent = (k.proc np).parent ∨
      ((k'.proc np).state = .UNUSED ∧ (e = .exit ∨ e = .execFinish)) ∨
      ∃ c', e.ends = true ∧ k.cpuProc = some c' ∧ (k.proc np).parent = some c' := by
    show (k'.core np).parent = _ ∨ ((k'.core np).state = _ ∧ _) ∨ _
    rw [Assigned] at hassigned
    generalize k'.core np = z at hassigned
    induction hassigned with
    | refl => exact .inl rfl
    | tail _ hassign ih =>
      cases hassign with
      | wake y hy =>
        rcases ih with hi | ⟨hi, _⟩ | hi
        · exact .inl hi
        · rw [hi] at hy; cases hy
        · exact .inr (.inr hi)
      | alloc _ _ hf => exact absurd ((firstUnused_state hf).symm.trans hemb) (by simp)
      | abort _ _ hf => exact absurd ((firstUnused_state hf).symm.trans hemb) (by simp)
      | drop y c' _ hnew' he =>
        rcases ih with hi | ⟨_, hi⟩ | hi
        · exact .inl hi
        · exact .inr (.inl ⟨rfl, hi⟩)
        · exact .inr (.inr hi)
      | copy _ _ _ hc _ => cases hown hc rfl
      | start y _ _ _ he =>
        rcases ih with hi | ⟨_, hi⟩ | hi
        · exact .inl hi
        · rw [he] at hi; rcases hi with hi | hi <;> cases hi
        · exact .inr (.inr hi)
      | attach _ _ _ _ hc _ => cases hown hc rfl
      | link _ _ _ _ hc _ _ => cases hown hc rfl
      | free _ hfree =>
        rcases hfree with ⟨he, _⟩ | ⟨_, hz⟩
        · exact .inr (.inl ⟨rfl, he⟩)
        · rw [hemb] at hz; cases hz
      | reap _ _ _ _ hz => rw [zombieChild_state hz] at hemb; cases hemb
      | passOn y c' he hc' hy =>
        rcases ih with hi | hi | hi
        · refine .inr (.inr ⟨c', ?_, hc', hi.symm.trans hy⟩)
          rcases he with rfl | rfl <;> rfl
        · exact .inr (.inl hi)
        · exact .inr (.inr hi)
      | die _ _ hc _ => exact absurd hc hcpu
      | replace _ _ _ => exact ih
      | rest _ hc _ => exact absurd hc hcpu
      | run y _ hy =>
        rcases ih with hi | ⟨hi, _⟩ | hi
        · exact .inl hi
        · rw [hi] at hy; cases hy
        · exact .inr (.inr hi)
  rcases hleft with hleft | ⟨hu, he⟩ | hleft
  · exact .inl hleft
  · obtain ⟨c', hc', hne, j, hj⟩ := released_onList hs he (by simp [hemb]) hu
    exact absurd hemb (hl he c' hc' j np hj hne)
  · exact .inr hleft

/-- The main thread of a process that is its own main thread stays the same. -/
theorem SlotsOk.main_step (h : SlotsOk k) (hs : Thread.step k e = .ok k')
    (hact : (k.proc p).state.active) (hm : (k.proc p).mainThread = some p)
    (hp' : (k'.proc p).state ≠ .UNUSED) : (k'.proc p).mainThread = some p := by
  have hnew := h.not_new hact.started
  have hassigned := step_assigned hs p
  have hleft : (k'.proc p).mainThread = some p ∨
      ((k'.proc p).state = .UNUSED ∧ (e = .exit ∨ e = .execFinish) ∧ k.cpuProc ≠ some p) := by
    show (k'.core p).mainThread = _ ∨ ((k'.core p).state = _ ∧ _)
    rw [Assigned] at hassigned
    generalize k'.core p = z at hassigned
    induction hassigned with
    | refl => exact .inl hm
    | tail _ hassign ih =>
      cases hassign with
      | wake y hy =>
        rcases ih with hi | ⟨hi, _⟩
        · exact .inl hi
        · rw [hi] at hy; cases hy
      | alloc _ _ _ => exact .inl rfl
      | abort _ _ hf => exact absurd (firstUnused_state hf) hact.started.1
      | drop _ c _ hc _ => exact absurd hc (hnew c)
      | copy _ _ _ _ _ => exact ih
      | start _ c _ hc _ => exact absurd (by rw [hc]; rfl) (hnew c)
      | attach _ c _ _ hc _ => exact absurd (by rw [hc]; rfl) (hnew c)
      | link _ c _ _ hc _ _ => exact absurd (by rw [hc]; rfl) (hnew c)
      | free _ hfree =>
        rcases hfree with ⟨he, hc⟩ | ⟨_, hz⟩
        · exact .inr ⟨rfl, he, hc⟩
        · rw [hz] at hact; simp [ProcState.active] at hact
      | reap _ _ _ _ hz =>
        rw [zombieChild_state hz] at hact; simp [ProcState.active] at hact
      | passOn _ _ _ _ _ => exact ih
      | die y _ hc _ =>
        rcases ih with hi | ⟨_, _, hne⟩
        · exact .inl hi
        · exact absurd hc hne
      | replace _ _ _ => exact .inl rfl
      | rest _ _ _ => exact .inl hm
      | run y _ hy =>
        rcases ih with hi | ⟨hi, _⟩
        · exact .inl hi
        · rw [hi] at hy; cases hy
  rcases hleft with hleft | ⟨hu, _⟩
  · exact hleft
  · exact absurd hu hp'

/-- Only a process inside `exit` or `thread_exit` ends. -/
theorem ends_call (hs : step k e = .ok k') (he : e.ends = true) (hc : k.cpuProc = some c) :
    k.call c = .exit ∨ ∃ r, k.call c = .threadExit r := by
  rw [step] at hs
  split at hs
  · cases hs
  cases e with
  | exit =>
    obtain ⟨c', hc', hs⟩ := byProc_ok hs
    cases hc.symm.trans hc'
    split at hs
    · rename_i hcall; exact .inl hcall.1
    · cases hs
  | threadExit =>
    obtain ⟨c', hc', hs⟩ := byProc_ok hs
    cases hc.symm.trans hc'
    split at hs
    · exact .inr ⟨_, ‹_›⟩
    · cases hs
  | _ => cases he

/-- A process that ends has no children afterwards, unless it is init. -/
theorem reparent_parent (h : ((reparent k c).proc x).parent = some c) : k.initproc = some c := by
  have hfirst : (if (k.proc x).parent = some c then { k.proc x with parent := k.initproc }
      else k.proc x).parent = some c → k.initproc = some c := fun hx => by
    split at hx
    · exact hx
    · exact absurd hx ‹_›
  rw [reparent] at h
  split at h
  · have hwake : ∀ (ch : Option Chan) (q : Proc), (wakeOne ch q).parent = q.parent := fun ch q => by
      rw [wakeOne]; split <;> rfl
    exact hfirst ((hwake _ _).symm.trans h)
  · exact hfirst h

theorem ends_parent (hs : step k e = .ok k') (he : e.ends = true) (hc : k.cpuProc = some c)
    (hx : (k'.proc x).parent = some c) : k.initproc = some c := by
  have hz : ∀ {k₁ : Kernel} {r : Nat}, ((zombie k₁ c r).proc x).parent = (k₁.proc x).parent :=
    fun {k₁ r} => by
      by_cases hxc : x = c
      · subst hxc; rw [zombie, proc_setWalk, proc_setCall, setProc_self]
      · rw [zombie_other hxc]
  rw [step] at hs
  split at hs
  · cases hs
  cases e with
  | exit =>
    obtain ⟨c', hc', hs⟩ := byProc_ok hs
    cases hc.symm.trans hc'
    split at hs
    · obtain ⟨k₁, hk₁, hs⟩ := bind_eq_ok.mp hs
      cases hs
      have hinit : k₁.initproc = k.initproc := congrArg Prod.snd (globals_freeThreads hk₁)
      rw [hz] at hx
      have hinit' := reparent_parent hx
      exact hinit.symm.trans hinit'
    · cases hs
  | threadExit =>
    obtain ⟨c', hc', hs⟩ := byProc_ok hs
    cases hc.symm.trans hc'
    split at hs
    · split at hs
      · cases hs
        rw [threadExit, hz] at hx
        exact (reparent_parent hx :)
      · cases hs
    · cases hs
  | _ => cases he

/-- `fork` makes its caller the parent. -/
theorem forkCopied_step (hs : step k e = .ok k') (hc : k.cpuProc = some c)
    (hcall : k.call c = .fork np) (hcall' : k'.call c = .forkCopied np) :
    (k'.proc np).parent = some c ∧ ∃ d, e = .forkCopy (some d) := by
  rcases step_call hs c with (hsame | ⟨huser, _⟩) | ⟨_, huser | henter⟩
  · rw [hsame, hcall] at hcall'; cases hcall'
  · rw [huser] at hcall'; cases hcall'
  · rw [huser] at hcall'; cases hcall'
  · rw [hcall'] at henter
    cases henter with
    | forkCopied dir _ _ =>
      rw [step] at hs
      split at hs
      · cases hs
      obtain ⟨c', hc', hs⟩ := byProc_ok hs
      cases hc.symm.trans hc'
      rw [hcall] at hs
      cases dir with
      | none =>
        cases hs
        have huser : (Kernel.ret (k.setProc np fun q =>
          { q with pgdir := none, kstack := false, state := .UNUSED }) c (-1)).call c = .user :=
          Function.update_self ..
        rw [huser] at hcall'
        cases hcall'
      | some d =>
        refine ⟨?_, d, rfl⟩
        obtain ⟨k₁, hk₁, hs⟩ := bind_eq_ok.mp hs
        obtain ⟨_, rfl⟩ := newDir_ok hk₁
        obtain ⟨m, _, hs⟩ := bind_eq_ok.mp hs
        cases hs
        rw [proc_setCall, setProc_self]
        rfl

/-- init does not call `exit`. -/
theorem exit_not_init (hs : step k e = .ok k') (he : e = .exitBegin ∨ ∃ r, e = .threadExitBegin r)
    (hc : k.cpuProc = some c) (hm : (k.proc c).mainThread = some c) : k.initproc ≠ some c := by
  intro hi
  have hpanic : ∀ {k' : Kernel}, exitBegin k c ≠ .ok k' := fun {k'} hk => by
    rw [exitBegin, if_pos hi] at hk
    cases hk
  rw [step] at hs
  split at hs
  · cases hs
  rcases he with rfl | ⟨r, rfl⟩
  · obtain ⟨c', hc', _, hs⟩ := byUser_ok hs
    cases hc.symm.trans hc'
    exact hpanic hs
  · obtain ⟨c', hc', _, hs⟩ := byUser_ok hs
    cases hc.symm.trans hc'
    rw [threadExitBegin, if_pos hm] at hs
    exact hpanic hs

/-! ### The history -/

theorem noteGen_active (h : (s.kernel.proc p).state.active) : noteGen s e p = s.gen p :=
  if_neg fun hf => h.started.1 (firstUnused_state hf.2)

/-- The forker changes only in a slot that a call has allocated. -/
theorem noteForker_cases (s : ParentRun) (e : Step) : noteForker s e = s.forker ∨
    ∃ c np o, (s.kernel.call c = .fork np ∨ ∃ m, s.kernel.call c = .create m np) ∧
      noteForker s e = Function.update s.forker np o := by
  unfold noteForker
  split
  · exact .inl rfl
  · rename_i c _
    split
    · rename_i np hcall
      exact .inr ⟨c, np, _, .inl hcall, rfl⟩
    · rename_i m np hcall
      exact .inr ⟨c, np, _, .inr ⟨m, hcall⟩, rfl⟩
    · exact .inl rfl

theorem noteForker_other (h : ∀ c, s.kernel.call c ≠ .fork p ∧ ∀ m, s.kernel.call c ≠ .create m p) :
    noteForker s e p = s.forker p := by
  rcases noteForker_cases s e with heq | ⟨c, np, o, hcall, heq⟩
  · rw [heq]
  · rw [heq]
    refine Function.update_of_ne (fun hp => ?_) ..
    subst hp
    rcases hcall with hcall | ⟨m, hcall⟩
    · exact (h c).1 hcall
    · exact (h c).2 m hcall

/-- The forker of a process that was started does not change. -/
theorem noteForker_started (h : SlotsOk s.kernel) (hp : (s.kernel.proc p).state.started) :
    noteForker s e p = s.forker p :=
  noteForker_other fun c => ⟨fun hc => h.not_new hp c (by rw [hc]; rfl),
    fun m hc => h.not_new hp c (by rw [hc]; rfl)⟩

/-- The forker of a new slot that was copied does not change. -/
theorem noteForker_copied (h : SlotsOk s.kernel) (hcall : s.kernel.call c = .forkCopied np) :
    noteForker s e np = s.forker np := by
  have hsame : ∀ c', (s.kernel.call c').newSlot = some np → s.kernel.call c' = .forkCopied np :=
    fun c' hc' => by rw [h.unique c' c np hc' (by rw [hcall]; rfl), hcall]
  refine noteForker_other fun c' => ⟨fun hc => ?_, fun m hc => ?_⟩
  · have heq := hsame c' (by rw [hc]; rfl)
    rw [hc] at heq
    cases heq
  · have heq := hsame c' (by rw [hc]; rfl)
    rw [hc] at heq
    cases heq

/-! ### The invariant -/

/-- What is known about init: it is active, its own main thread, and does not end. -/
structure InitOk (k : Kernel) (i : Slot) : Prop where
  init : k.initproc = some i
  active : (k.proc i).state.active
  main : (k.proc i).mainThread = some i
  stays : k.call i ≠ .exit ∧ ∀ r, k.call i ≠ .threadExit r

/-- What holds in every state of the run. -/
structure ParentInv (s : ParentRun) : Prop where
  slots : SlotsOk s.kernel
  init : ∃ i, InitOk s.kernel i
  parents : ∀ x, (s.kernel.proc x).state.started → s.kernel.initproc ≠ some x → HasParent s x
  copied : ∀ c np, s.kernel.call c = .forkCopied np → (s.kernel.proc c).state.active ∧
    (s.kernel.proc np).parent = some c ∧ s.forker np = some (c, s.gen c)

theorem Childless.started (h : Childless k e) : ListStarted k e :=
  fun he c hc n p hp hne => (h he c hc n p hp hne).1

/-- init stays. -/
theorem InitOk.step (h : InitOk k i) (hok : SlotsOk k) (he : Childless k e)
    (hs : Thread.step k e = .ok k') : InitOk k' i := by
  have hact : (k'.proc i).state.active := by
    rcases hok.active_step hs h.active with hact | ⟨hends, hc⟩ | ⟨hu, hee, _⟩
    · exact hact
    · rcases ends_call hs hends hc with hcall | ⟨r, hcall⟩
      · exact absurd hcall h.stays.1
      · exact absurd hcall (h.stays.2 r)
    · obtain ⟨c, hc, hne, j, hj⟩ := released_onList hs hee h.active.started.1 hu
      exact absurd h.init (he hee c hc j i hj hne).2.1
  have hcall : ∀ x, x = .exit ∨ (∃ r, x = .threadExit r) → k'.call i ≠ x := fun x hx hi => by
    rcases step_call hs i with (hsame | ⟨huser, _⟩) | ⟨hc, huser | henter⟩
    · rw [hsame] at hi
      rcases hx with rfl | ⟨r, rfl⟩
      · exact h.stays.1 hi
      · exact h.stays.2 r hi
    · rw [huser] at hi
      rcases hx with rfl | ⟨r, rfl⟩ <;> cases hi
    · rw [huser] at hi
      rcases hx with rfl | ⟨r, rfl⟩ <;> cases hi
    · rw [hi] at henter
      have hbegin : e = .exitBegin ∨ ∃ r, e = .threadExitBegin r := by
        rcases hx with rfl | ⟨r, rfl⟩
        · cases henter with
          | exit _ he => exact he
        · cases henter with
          | threadExit => exact .inr ⟨r, rfl⟩
      exact exit_not_init hs hbegin hc h.main h.init
  exact {
    init := (step_cpu hs).1.trans h.init
    active := hact
    main := hok.main_step hs h.active h.main hact.started.1
    stays := ⟨hcall _ (.inl rfl), fun r => hcall _ (.inr ⟨r, rfl⟩)⟩ }

/-- An active thread that is the parent of somebody is still active after a step, if it is still
    the parent. -/
theorem ParentInv.parent_stays (h : ParentInv s) (he : Childless s.kernel e)
    (hs : Thread.step s.kernel e = .ok k') (hact : (s.kernel.proc p).state.active)
    (hx : (s.kernel.proc x).state.started) (hp : (s.kernel.proc x).parent = some p)
    (hp' : (k'.proc x).parent = some p) : (k'.proc p).state.active := by
  rcases h.slots.active_step hs hact with hact' | ⟨hends, hc⟩ | ⟨hu, hee, _⟩
  · exact hact'
  · -- a thread that ends passes its children on
    have hinit := ends_parent hs hends hc hp'
    obtain ⟨i, hi⟩ := h.init
    have hip : i = p := Option.some.inj (hi.init.symm.trans hinit)
    subst hip
    rcases ends_call hs hends hc with hcall | ⟨r, hcall⟩
    · exact absurd hcall hi.stays.1
    · exact absurd hcall (hi.stays.2 r)
  · obtain ⟨c, hc, hne, j, hj⟩ := released_onList hs hee hact.started.1 hu
    exact absurd hp ((he hee c hc j p hj hne).2.2 x hx)

/-- An active thread stays active in a step of `fork` or `thread_create`. -/
theorem SlotsOk.active_stays (h : SlotsOk k) (hs : Thread.step k e = .ok k')
    (hact : (k.proc p).state.active) (he : e.ends = false) (he' : e ≠ .execFinish) :
    (k'.proc p).state.active := by
  rcases h.active_step hs hact with hact' | ⟨hends, _⟩ | ⟨_, hee, _⟩
  · exact hact'
  · rw [he] at hends; cases hends
  · rcases hee with rfl | rfl
    · cases he
    · exact absurd rfl he'

/-- Everybody who is in use after a step has a parent. -/
theorem ParentInv.parents_step (h : ParentInv s) (he : KeepsParents s e)
    (hs : Thread.step s.kernel e = .ok k') (hx : (k'.proc x).state.started)
    (hxi : k'.initproc ≠ some x) : HasParent ⟨k', noteGen s e, noteForker s e⟩ x := by
  have hinit : k'.initproc = s.kernel.initproc := (step_cpu hs).1
  rcases h.slots.parent_step hs hx with ⟨hst, hpar | ⟨c, hends, hc, hpc, hpar⟩⟩ |
    ⟨c, rfl, hc, hcall, hpar⟩ | ⟨c, m, ⟨ok, rfl⟩, hc, hcall, hpar⟩
  · -- the parent is the same
    obtain ⟨p, hp, hact, hwho⟩ := h.parents x hst (fun hi => hxi (hinit.trans hi))
    refine ⟨p, hpar.trans hp, h.parent_stays he.1 hs hact hst hp (hpar.trans hp), ?_⟩
    show k'.initproc = some p ∨ noteForker s e x = some (p, noteGen s e p)
    rw [hinit, noteForker_started h.slots hst, noteGen_active hact]
    exact hwho
  · -- the parent has ended, and init is the new one
    obtain ⟨i, hi⟩ := h.init
    exact ⟨i, hpar.trans hi.init, (hi.step h.slots he.1 hs).active, .inl (hinit.trans hi.init)⟩
  · -- the child of a `fork` starts
    obtain ⟨hact, hp, hwho⟩ := h.copied c x hcall
    refine ⟨c, hpar.trans hp, h.slots.active_stays hs hact rfl (by simp), .inr ?_⟩
    show noteForker s .forkRun x = some (c, noteGen s .forkRun c)
    rw [noteForker_copied h.slots hcall, noteGen_active hact]
    exact hwho
  · -- a new thread has the parent of its main thread
    obtain ⟨hm, hmi⟩ := he.2 ⟨ok, rfl⟩ c hc m (by rw [hcall]; rfl)
    obtain ⟨p, hp, hact, hwho⟩ := h.parents m hm hmi
    refine ⟨p, hpar.trans hp, h.slots.active_stays hs hact rfl (by simp), ?_⟩
    have hforker : noteForker s (.createFinish ok) x = s.forker m := by
      rw [noteForker, hc]
      simp only [hcall, Function.update_self]
    show k'.initproc = some p ∨
      noteForker s (.createFinish ok) x = some (p, noteGen s (.createFinish ok) p)
    rw [hinit, hforker, noteGen_active hact]
    exact hwho

/-- The caller of `fork` is the parent of the slot that it has copied. -/
theorem ParentInv.copied_step (h : ParentInv s) (he : Childless s.kernel e)
    (hs : Thread.step s.kernel e = .ok k') (hcall : k'.call c = .forkCopied np) :
    (k'.proc c).state.active ∧ (k'.proc np).parent = some c ∧
      noteForker s e np = some (c, noteGen s e c) := by
  rcases step_call hs c with (hsame | ⟨huser, _⟩) | ⟨hc, huser | henter⟩
  · have hcall₀ := hcall
    rw [hsame] at hcall
    obtain ⟨hact, hp, hwho⟩ := h.copied c np hcall
    -- the caller is inside `fork` and does not end
    have hends : e.ends = true → s.kernel.cpuProc ≠ some c := fun hends hc => by
      rcases ends_call hs hends hc with hx | ⟨r, hx⟩ <;> (rw [hcall] at hx; cases hx)
    refine ⟨?_, ?_, ?_⟩
    · rcases h.slots.active_step hs hact with hact' | ⟨he', hc⟩ | ⟨hu, hee, _⟩
      · exact hact'
      · exact absurd hc (hends he')
      · rw [released_call hs hee hact.started.1 hu] at hcall₀
        cases hcall₀
    · rcases h.slots.copied_step he.started hs hcall with hpar | ⟨c', he', hc', hpc⟩
      · exact hpar.trans hp
      · have hcc : c' = c := Option.some.inj (hpc.symm.trans hp)
        subst hcc
        exact absurd hc' (hends he')
    · rw [noteForker_copied h.slots hcall, noteGen_active hact]
      exact hwho
  · rw [huser] at hcall; cases hcall
  · rw [huser] at hcall; cases hcall
  · rw [hcall] at henter
    cases henter with
    | forkCopied dir _ hfork =>
      obtain ⟨hp, d, he⟩ := forkCopied_step hs hc hfork hcall
      cases he
      have hact := h.slots.cpu c hc
      refine ⟨h.slots.active_stays hs hact rfl (by simp), hp, ?_⟩
      rw [noteGen_active hact, noteForker, hc]
      simp only [hfork, Function.update_self]

/-- One step of the run. -/
theorem ParentInv.step (h : ParentInv s) (he : KeepsParents s e) (hs : parentStep s e = .ok s') :
    ParentInv s' := by
  obtain ⟨k', hk', hs⟩ := bind_eq_ok.mp hs
  cases hs
  obtain ⟨i, hi⟩ := h.init
  exact {
    slots := h.slots.step he.1.started hk'
    init := ⟨i, hi.step h.slots he.1 hk'⟩
    parents := fun _ hx hxi => h.parents_step he hk' hx hxi
    copied := fun _ _ hcall => h.copied_step he.1 hk' hcall }

/-- The invariant holds at the start, where there is only init. -/
theorem ParentInv.start (h : ParentInit s) : ParentInv s := by
  obtain ⟨hinit, _, _⟩ := h
  have hslots := SlotsOk.init hinit
  have hfirst : s.kernel.initproc = some 0 := by
    obtain ⟨d, hd⟩ := hinit
    obtain ⟨k₁, hk₁, hd⟩ := bind_eq_ok.mp hd
    obtain ⟨_, rfl⟩ := newDir_ok hk₁
    rw [← Except.ok.inj hd]
    rfl
  obtain ⟨d, hproc, hcall, _⟩ := init_eq hinit
  have huser : ∀ c, s.kernel.call c = .user := fun c => by rw [hcall]
  have hself : s.kernel.proc 0 = initProc d := by rw [hproc, Function.update_self]
  have hother : ∀ x, x ≠ 0 → (s.kernel.proc x).state = .UNUSED := fun x hx => by
    rw [hproc, Function.update_of_ne hx]
  exact {
    slots := hslots
    init := ⟨0, hfirst, by rw [hself]; exact .inr (.inl rfl), by rw [hself]; rfl, by simp [huser]⟩
    parents := fun x hx hxi => by
      by_cases hx0 : x = 0
      · subst hx0; exact absurd hfirst hxi
      · exact absurd (hother x hx0) hx.1
    copied := fun c np hcall => by rw [huser c] at hcall; cases hcall }

end Xv6.Thread
