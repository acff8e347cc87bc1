import Xv6.Thread.Effect

namespace Xv6.Thread

open Xv6.Lib

/-!
# Threads — the steps keep the groups

Every step of the machine keeps the invariant of the groups of threads, under the condition
`KeepsGroups`, which rules out these accidents:

* `allocproc` takes a slot to which a thread still points as its main thread, or `fork` takes one
  with a `next_thread` that was left over;
* `wait` reaps a thread whose main thread is still in use;
* `thread_join` releases a thread that is not the first one of the list.

The loops that close files stay inside their process under `LeavesWalks`: `thread_join` does not
release a thread at which such a loop has arrived.  The directories stay with their processes
under `Careful`, which rules out also that

* `thread_create` fails at the check of the memory limit, and leaves a slot behind;
* `exit` is called by a thread whose directory is not the one of its main thread;
* `wait` finds an unfinished slot that carries the directory as a left-over.

The results are `KernelInv.step` and `KernelInv.of_reachable`.
-/

/-! ### The condition -/

/-- No thread that has run has `p` as its main thread. -/
def NoGroup (k : Kernel) (p : Slot) : Prop :=
  ∀ q, (k.proc q).state ≠ .UNUSED → (k.proc q).state ≠ .EMBRYO →
    (k.proc q).mainThread ≠ some p

/-- A zombie that `thread_join` releases is the first thread of the list of `m`. -/
def FirstIfZombie (k : Kernel) (m p : Slot) : Prop :=
  (k.proc p).state = .ZOMBIE → (k.proc m).nextThread = some p

/-- A zombie that `wait` reaps is a main thread, or its main thread was released before. -/
def LastThread (k : Kernel) (p : Slot) : Prop :=
  ∀ m, (k.proc p).mainThread = some m → p = m ∨ (k.proc m).state = .UNUSED

/-- A zombie that `wait` reaps is a main thread, or its main thread was released before; and no
    slot that is not finished yet carries its directory from an earlier use. -/
structure ReapOk (k : Kernel) (p : Slot) : Prop where
  last : ∀ m, (k.proc p).mainThread = some m → p = m ∨ (k.proc m).state = .UNUSED
  leftover : ∀ q, (k.proc q).state = .EMBRYO → (∀ c, k.call c ≠ .forkCopied q) →
    (k.proc q).pgdir ≠ (k.proc p).pgdir

/-- The conditions under which the groups of threads stay together. -/
def KeepsGroups (k : Kernel) : Step → Prop
  | .forkAlloc _ => ∀ p ∈ firstUnused k, NoGroup k p ∧ (k.proc p).nextThread = none
  | .createAlloc _ => ∀ p ∈ firstUnused k, NoGroup k p
  | .wait => ∀ c ∈ k.cpuProc, ∀ p ∈ zombieChild k c, LastThread k p
  | .threadJoin tid => ∀ c ∈ k.cpuProc, ∀ m ∈ (k.proc c).mainThread, ∀ p,
      walkFind k.next (fun p => (k.proc p).tid = tid ∧ (k.proc p).joinThread = some c) NPROC
        (k.proc m).nextThread = some (some p) → FirstIfZombie k m p
  | .joinCheck => ∀ c ∈ k.cpuProc, ∀ m p, k.call c = .join m p → FirstIfZombie k m p
  | _ => True

/-- The thread at which a loop that closes files has arrived. -/
def Walk.target : Walk → Option Slot
  | .at p => some p
  | .visit p _ => some p
  | .behind p => some p
  | _ => none

/-- No loop that closes files has arrived at the thread that `thread_join` releases. -/
def JoinsIdle (k : Kernel) (p : Slot) : Prop :=
  (k.proc p).state = .ZOMBIE → ∀ q, (k.walk q).target ≠ some p

/-- The condition under which also the loops that close files stay with their processes. -/
def LeavesWalks (k : Kernel) : Step → Prop
  | .threadJoin tid => ∀ c ∈ k.cpuProc, ∀ m ∈ (k.proc c).mainThread, ∀ p,
      walkFind k.next (fun p => (k.proc p).tid = tid ∧ (k.proc p).joinThread = some c) NPROC
        (k.proc m).nextThread = some (some p) → JoinsIdle k p
  | .joinCheck => ∀ c ∈ k.cpuProc, ∀ m p, k.call c = .join m p → JoinsIdle k p
  | _ => True

/-- The conditions under which also the directories stay with their processes. -/
def Careful (k : Kernel) : Step → Prop
  | .forkAlloc _ => ∀ p ∈ firstUnused k, NoGroup k p ∧ (k.proc p).nextThread = none
  | .createAlloc _ => ∀ p ∈ firstUnused k, NoGroup k p
  | .createFinish ok => ∀ c ∈ k.cpuProc, ∀ m np, k.call c = .create m np →
      ¬ overLimit k m (stackSize k m ok)
  | .exit => ∀ c ∈ k.cpuProc, ∀ m ∈ (k.proc c).mainThread, (k.proc m).pgdir = (k.proc c).pgdir
  | .wait => ∀ c ∈ k.cpuProc, ∀ p ∈ zombieChild k c, ReapOk k p
  | .threadJoin tid => ∀ c ∈ k.cpuProc, ∀ m ∈ (k.proc c).mainThread, ∀ p,
      walkFind k.next (fun p => (k.proc p).tid = tid ∧ (k.proc p).joinThread = some c) NPROC
        (k.proc m).nextThread = some (some p) → FirstIfZombie k m p
  | .joinCheck => ∀ c ∈ k.cpuProc, ∀ m p, k.call c = .join m p → FirstIfZombie k m p
  | _ => True

instance (k : Kernel) (p : Slot) : Decidable (NoGroup k p) :=
  inferInstanceAs (Decidable (∀ _, _))

instance (k : Kernel) (m p : Slot) : Decidable (FirstIfZombie k m p) :=
  inferInstanceAs (Decidable (_ → _))

instance (k : Kernel) (p : Slot) : Decidable (ReapOk k p) :=
  decidable_of_iff (_ ∧ _) ⟨fun h => ⟨h.1, h.2⟩, fun h => ⟨h.last, h.leftover⟩⟩

instance (k : Kernel) : (e : Step) → Decidable (Careful k e)
  | .forkAlloc _ => inferInstanceAs (Decidable (∀ p ∈ firstUnused k, _))
  | .createAlloc _ => inferInstanceAs (Decidable (∀ p ∈ firstUnused k, _))
  | .createFinish _ => inferInstanceAs (Decidable (∀ c ∈ k.cpuProc, _))
  | .exit => inferInstanceAs (Decidable (∀ c ∈ k.cpuProc, ∀ m ∈ (k.proc c).mainThread, _))
  | .wait => inferInstanceAs (Decidable (∀ c ∈ k.cpuProc, ∀ p ∈ zombieChild k c, _))
  | .threadJoin _ => inferInstanceAs (Decidable (∀ c ∈ k.cpuProc, ∀ m ∈ (k.proc c).mainThread, _))
  | .joinCheck => inferInstanceAs (Decidable (∀ c ∈ k.cpuProc, _))
  | .forkCopy _ | .forkRun | .exitBegin | .threadExitBegin _ | .closeFiles | .threadExit
  | .execCommit _ _ | .execFinish | .sbrk _ | .growproc _ | .setmemorylimit _ _ | .kill _
  | .fdalloc _ | .close _ | .chdir _ | .sleep _ | .yield | .wakeup _ | .schedule => .isTrue trivial

instance (k : Kernel) (p : Slot) : Decidable (LastThread k p) :=
  inferInstanceAs (Decidable (∀ _, _))

instance (k : Kernel) (p : Slot) : Decidable (JoinsIdle k p) :=
  inferInstanceAs (Decidable (_ → _))

instance (k : Kernel) : (e : Step) → Decidable (LeavesWalks k e)
  | .threadJoin _ => inferInstanceAs (Decidable (∀ c ∈ k.cpuProc, ∀ m ∈ (k.proc c).mainThread, _))
  | .joinCheck => inferInstanceAs (Decidable (∀ c ∈ k.cpuProc, _))
  | .forkAlloc _ | .createAlloc _ | .wait | .forkCopy _ | .forkRun | .createFinish _ | .exitBegin
  | .threadExitBegin _ | .closeFiles | .exit | .threadExit | .execCommit _ _ | .execFinish
  | .sbrk _ | .growproc _ | .setmemorylimit _ _ | .kill _ | .fdalloc _ | .close _ | .chdir _
  | .sleep _ | .yield | .wakeup _ | .schedule => .isTrue trivial

instance (k : Kernel) : (e : Step) → Decidable (KeepsGroups k e)
  | .forkAlloc _ => inferInstanceAs (Decidable (∀ p ∈ firstUnused k, _))
  | .createAlloc _ => inferInstanceAs (Decidable (∀ p ∈ firstUnused k, _))
  | .wait => inferInstanceAs (Decidable (∀ c ∈ k.cpuProc, ∀ p ∈ zombieChild k c, _))
  | .threadJoin _ => inferInstanceAs (Decidable (∀ c ∈ k.cpuProc, ∀ m ∈ (k.proc c).mainThread, _))
  | .joinCheck => inferInstanceAs (Decidable (∀ c ∈ k.cpuProc, _))
  | .forkCopy _ | .forkRun | .createFinish _ | .exitBegin | .threadExitBegin _ | .closeFiles
  | .exit | .threadExit | .execCommit _ _ | .execFinish | .sbrk _ | .growproc _
  | .setmemorylimit _ _ | .kill _ | .fdalloc _ | .close _ | .chdir _ | .sleep _ | .yield
  | .wakeup _ | .schedule => .isTrue trivial

/-- Careful steps keep the groups together. -/
theorem Careful.keepsGroups {k : Kernel} {e : Step} (h : Careful k e) : KeepsGroups k e := by
  cases e with
  | wait => exact fun c hc p hp => (h c hc p hp).last
  | exit => trivial
  | createFinish ok => trivial
  | _ => exact h

/-! ### The invariant -/

/-- A thread of the process of `m` that has not ended. -/
def Runs (v : Slot → View) (m q : Slot) : Prop := (v q).life = .active ∧ (v q).main = some m

/-- The loops that close files have arrived at threads of their own process. -/
def Walks (v : Slot → View) (walk : Slot → Walk) : Prop :=
  ∀ c p, (walk c).target = some p → ∃ m, Runs v m c ∧ Member v m p

/-- The invariant of the machine while `ptable.lock` is free.  What is said about directories is
    known under `D`, what is said about the loops that close files under `W`. -/
structure KernelInv (D W : Prop) (k : Kernel) : Prop where
  inv : Inv D k.view k.call k.dirs
  cpu : ∀ c, k.cpuProc = some c → (k.view c).life = .active
  walks : W → Walks k.view k.walk

variable {D W : Prop} {k k' : Kernel} {c m np p : Slot}

theorem Runs.congr {v v' : Slot → View} {q : Slot} (h : Runs v m q) (heq : v' q = v q) :
    Runs v' m q := by rw [Runs, heq]; exact h

theorem Member.congr {v v' : Slot → View} {q : Slot} (h : Member v m q) (heq : v' q = v q) :
    Member v' m q := by rw [Member, Live, heq]; exact h

/-- A step that ends the threads `S`, at which no loop of another thread has arrived. -/
theorem Walks.release {v v' : Slot → View} {walk walk' : Slot → Walk} (h : Walks v walk)
    {S : Slot → Prop} (hrun : ∀ m q, Runs v m q → ¬ S q → Runs v' m q ∨ (walk' q).target = none)
    (hmem : ∀ m q, Member v m q → ¬ S q → Member v' m q)
    (hwalk : ∀ q, (walk' q).target = (walk q).target ∧ ¬ S q ∨ (walk' q).target = none)
    (hS : ∀ q p, S p → ¬ S q → (walk q).target ≠ some p) : Walks v' walk' := by
  intro q p hp
  rcases hwalk q with ⟨hq, hqS⟩ | hq
  · rw [hq] at hp
    obtain ⟨m, hmq, hmp⟩ := h q p hp
    rcases hrun m q hmq hqS with hr | hnone
    · exact ⟨m, hr, hmem m p hmp fun hpS => hS q p hpS hqS hp⟩
    · rw [hq, hp] at hnone
      cases hnone
  · rw [hq] at hp
    cases hp

/-- A step in which no thread ends. -/
theorem Walks.mono {v v' : Slot → View} {walk : Slot → Walk} (h : Walks v walk)
    (hlive : ∀ q, Live v q → (v' q).life = (v q).life ∧ (v' q).main = (v q).main) :
    Walks v' walk := by
  intro q p hp
  obtain ⟨m, hmq, hmp⟩ := h q p hp
  refine ⟨m, ?_, ?_⟩
  · rw [Runs, (hlive q (.inl hmq.1)).1, (hlive q (.inl hmq.1)).2]
    exact hmq
  · rw [Member, Live, (hlive p hmp.1).1, (hlive p hmp.1).2]
    exact hmp

/-- A step in which a whole process ends. -/
theorem Walks.endGroup {v v' : Slot → View} {walk walk' : Slot → Walk} (h : Walks v walk) {m : Slot}
    (hrest : ∀ q, ¬ Member v m q → v' q = v q ∧ walk' q = walk q)
    (hidle : ∀ q, Member v m q → walk' q = .idle) : Walks v' walk' := by
  refine h.release (S := Member v m) (fun m' q hq hS => .inl (hq.congr (hrest q hS).1))
    (fun m' q hq hS => hq.congr (hrest q hS).1) (fun q => ?_) fun q p hp hq hqp => ?_
  · by_cases hq : Member v m q
    · exact .inr (by rw [hidle q hq]; rfl)
    · exact .inl ⟨by rw [(hrest q hq).2], hq⟩
  · obtain ⟨m', hmq, hmp⟩ := h q p hqp
    have hmm : m' = m := Option.some.inj (hmp.2.symm.trans hp.2)
    subst hmm
    exact hq ⟨.inl hmq.1, hmq.2⟩

theorem byProc_ok {f : Slot → Except Stop Kernel} (h : byProc k f = .ok k') :
    ∃ c, k.cpuProc = some c ∧ f c = .ok k' := by
  rw [byProc] at h
  split at h
  · cases h
  · exact ⟨_, ‹_›, h⟩

theorem byUser_ok {f : Slot → Except Stop Kernel} (h : byUser k f = .ok k') :
    ∃ c, k.cpuProc = some c ∧ k.call c = .user ∧ f c = .ok k' := by
  obtain ⟨c, hc, hf⟩ := byProc_ok h
  split at hf
  · exact ⟨c, hc, ‹_›, hf⟩
  · cases hf

theorem deref_ok {p : Option Slot} {q : Slot} (h : deref p = .ok q) : p = some q := by
  cases p with
  | none => cases h
  | some p => cases h; rfl

theorem newDir_ok {d : Nat} (h : newDir k d = .ok k') :
    d ∉ k.dirs ∧ k' = { k with dirs := d :: k.dirs } := by
  rw [newDir] at h
  split at h
  · cases h
  · cases h; exact ⟨‹_›, rfl⟩

theorem freevm_ok {d : Option Nat} (h : freevm k d = .ok k') :
    ∃ e, d = some e ∧ k' = { k with dirs := k.dirs.filter fun e' => e' ≠ e } := by
  cases d with
  | none => cases h
  | some e => cases h; exact ⟨e, rfl, rfl⟩

/-- A step that changes nothing that the invariant is about. -/
theorem KernelInv.congr (h : KernelInv D W k) (hview : k'.view = k.view) (hcall : k'.call = k.call)
    (hdirs : k'.dirs = k.dirs) (hwalk : k'.walk = k.walk)
    (hcpu : ∀ c, k'.cpuProc = some c → (k.view c).life = .active) : KernelInv D W k' :=
  ⟨by rw [hview, hcall, hdirs]; exact h.inv, by rw [hview]; exact hcpu,
    by rw [hview, hwalk]; exact h.walks⟩

theorem KernelInv.sleep (h : KernelInv D W k) (hc : (k.view c).life = .active) (chan : Chan) :
    KernelInv D W (sleep k c chan) :=
  h.congr (view_activate (k := { k with cpuProc := none }) rfl hc) rfl rfl rfl fun _ hc' => by
    cases hc'

theorem KernelInv.yield (h : KernelInv D W k) (hc : (k.view c).life = .active) :
    KernelInv D W (yield k c) :=
  h.congr (view_activate (k := { k with cpuProc := none }) rfl hc) rfl rfl rfl fun _ hc' => by
    cases hc'

/-- A process goes on to another place of its call. -/
theorem KernelInv.setCall (h : KernelInv D W k) {x : Call} (hinv : Inv D k.view
    (Function.update k.call c x) k.dirs) : KernelInv D W (k.setCall c x) :=
  ⟨hinv, h.cpu, h.walks⟩

theorem KernelInv.toUser (h : KernelInv D W k) (c : Slot) : KernelInv D W (k.setCall c .user) :=
  h.setCall (h.inv.toUser c)

/-- An assignment to fields that are not seen. -/
theorem KernelInv.setProc (h : KernelInv D W k) {f : Proc → Proc}
    (hf : (f (k.proc p)).view = (k.proc p).view) : KernelInv D W (k.setProc p f) :=
  h.congr (view_setProc_eq hf) rfl rfl rfl h.cpu

theorem setCall_ret (x : Call) (r : Int) : (k.setCall c x).ret c r = k.ret c r := by
  simp [Kernel.ret, Kernel.setProc, Kernel.setCall]

theorem KernelInv.ret (h : KernelInv D W k) (c : Slot) (r : Int) : KernelInv D W (k.ret c r) :=
  (h.setProc rfl).toUser c

/-- A process goes on in the loops that close files. -/
theorem KernelInv.setWalk (h : KernelInv D W k) {w : Walk}
    (hw : W → ∀ p, w.target = some p → ∃ m, Runs k.view m c ∧ Member k.view m p) :
    KernelInv D W (k.setWalk c w) := by
  refine ⟨h.inv, h.cpu, fun hW q p hp => ?_⟩
  by_cases hq : q = c
  · subst hq
    refine hw hW p ?_
    simpa [Kernel.setWalk] using hp
  · refine h.walks hW q p ?_
    simpa [Kernel.setWalk, hq] using hp

/-- A process enters a call, or stays in it, that has no slot and no directory of its own. -/
theorem KernelInv.enter (h : KernelInv D W k) {x : Call} (hc : (k.view c).life = .active)
    (hok : CallOk D k.view c x) (hexec : ∀ old, x ≠ .exec old) (hnew : x.newSlot = none) :
    KernelInv D W (k.setCall c x) := by
  refine h.setCall ?_
  have hu := (h.inv.toUser c).enter (c := c) (x := x) (Function.update_self ..) hc hok hexec
    (fun np hx => by rw [hx] at hnew; cases hnew) fun c' np hx => by rw [hnew] at hx; cases hx
  rwa [Function.update_idem] at hu

/-! ### `fork` -/

theorem firstUnused_state (h : firstUnused k = some p) : (k.proc p).state = .UNUSED := by
  have hu := List.find?_some h
  exact of_decide_eq_true hu

theorem firstUnused_spec (h : firstUnused k = some p) : (k.view p).life = .unused := by
  simp [Kernel.view, Proc.view, firstUnused_state h, ProcState.life]

theorem state_of_live {q : Slot} (h : Live k.view q) : (k.proc q).state ≠ .UNUSED := by
  intro hs
  exact not_live_of_unused (by simp [Kernel.view, Proc.view, hs, ProcState.life]) h

theorem state_of_live' {q : Slot} (h : Live k.view q) : (k.proc q).state ≠ .EMBRYO := by
  intro hs
  exact not_live_of_embryo (by simp [Kernel.view, Proc.view, hs, ProcState.life]) h

/-- A slot that is no thread changes. -/
theorem Walks.setDead {v : Slot → View} {walk : Slot → Walk} (h : Walks v walk) {w : View}
    (hp : ¬ Live v p) : Walks (Function.update v p w) walk := by
  refine h.mono fun q hq => ?_
  have hqp : q ≠ p := fun hqp => hp (hqp ▸ hq)
  rw [Function.update_of_ne hqp]
  exact ⟨rfl, rfl⟩

/-- A slot that is no thread changes. -/
theorem KernelInv.setDead (h : KernelInv D W k) {w : View} (hp : ¬ Live k.view p)
    (hw : w.life = .unused ∨ w.life = .embryo)
    (hmain : ∀ q, Live k.view q → (k.view q).main ≠ some p)
    (hcall : ∀ c, (k.call c).newSlot ≠ some p) (hview : k'.view = Function.update k.view p w)
    (hsame : k'.call = k.call ∧ k'.dirs = k.dirs ∧ k'.walk = k.walk ∧ k'.cpuProc = k.cpuProc) :
    KernelInv D W k' := by
  refine ⟨?_, fun c hc => ?_, fun hW => ?_⟩
  · rw [hview, hsame.1, hsame.2.1]
    exact h.inv.setDead hp hw hmain hcall
  · rw [hsame.2.2.2] at hc
    have hcp : c ≠ p := fun hcp => hp (hcp ▸ .inl (h.cpu c hc))
    rw [hview, Function.update_of_ne hcp]
    exact h.cpu c hc
  · rw [hview, hsame.2.2.1]
    exact (h.walks hW).setDead hp

/-- `allocproc` hands out a slot that nobody refers to. -/
theorem KernelInv.allocproc (h : KernelInv D W k) (hc : k.cpuProc = some c) (hu : k.call c = .user)
    (hfree : ∀ p, firstUnused k = some p → NoGroup k p) {next : Slot → Call}
    (hslot : ∀ p, (next p).newSlot = some p) (hcopied : ∀ p np, next p ≠ .forkCopied np)
    (hok : ∀ p, firstUnused k = some p → p ≠ c → CallOk D (initSlot k p).view c (next p))
    (ok : Bool) : KernelInv D W (allocproc k c next ok) := by
  rw [Thread.allocproc]
  split
  · exact h.ret c _
  · rename_i p hp
    have hpu := firstUnused_spec hp
    have hpc : p ≠ c := fun hpc => by rw [hpc, h.cpu c hc] at hpu; cases hpu
    have hset : ∀ {k' : Kernel} {w : View}, w.life = .unused ∨ w.life = .embryo →
        k'.view = Function.update k.view p w →
        k'.call = k.call ∧ k'.dirs = k.dirs ∧ k'.walk = k.walk ∧ k'.cpuProc = k.cpuProc →
        KernelInv D W k' := fun hw => h.setDead (not_live_of_unused hpu) hw
      (fun q hq => hfree p hp q (state_of_live hq) (state_of_live' hq)) (h.inv.unused_not_new hpu)
    split
    · have hinv : KernelInv D W ((initSlot k p).setProc p fun q => { q with kstack := true }) :=
        hset (.inr rfl) (by rw [view_setStack, view_initSlot]) ⟨rfl, rfl, rfl, rfl⟩
      refine hinv.setCall (hinv.inv.enter hu (hinv.cpu c hc) ?_ (fun old hx => ?_) (hcopied p)
        fun c' np hnp => ?_)
      · rw [view_setStack]
        exact hok p hp hpc
      · have := hslot p; rw [hx] at this; cases this
      · rw [hslot p] at hnp
        cases hnp
        exact h.inv.unused_not_new hpu c'
    · generalize hk₁ : ((initSlot k p).setProc p fun q =>
        { q with kstack := false, state := .UNUSED }) = k₁
      have hview : k₁.view = Function.update k.view p { k.view p with
          life := .unused, main := some p, pid := k.nextpid, tid := 0, createNum := 0 } := by
        rw [← hk₁, view_setProc, view_initSlot, Function.update_idem]
        simp [initSlot, Kernel.setProc, Proc.view, Kernel.view, ProcState.life]
      exact (hset (.inl rfl) hview (by rw [← hk₁]; exact ⟨rfl, rfl, rfl, rfl⟩)).ret c _

/-- No other call refers to the slot that a call has allocated. -/
theorem Inv.new_only {v : Slot → View} {call : Slot → Call} {dirs : List Nat}
    (h : Inv D v call dirs) (hc : (call c).newSlot = some np) (c' : Slot) :
    (Function.update call c .user c').newSlot ≠ some np := by
  intro hnp
  by_cases hcc : c' = c
  · subst hcc; rw [Function.update_self] at hnp; cases hnp
  · rw [Function.update_of_ne hcc] at hnp
    exact hcc (h.news c' c np hnp hc)

/-- A call changes the slot that it has allocated, and leaves it. -/
theorem KernelInv.setNew (h : KernelInv D W k) (hc : (k.call c).newSlot = some np) {f : Proc → Proc}
    (hw : (f (k.proc np)).view.life = .unused ∨ (f (k.proc np)).view.life = .embryo) :
    KernelInv D W ((k.setProc np f).setCall c .user) := by
  have hemb := h.inv.new_embryo hc
  refine (h.toUser c).setDead (not_live_of_embryo hemb) hw (fun q hq hm => ?_) (h.inv.new_only hc)
    (view_setProc f) ⟨rfl, rfl, rfl, rfl⟩
  exact h.inv.no_members (by rw [hemb]; simp) (.inr hemb) ⟨hq, hm⟩

theorem KernelInv.forkCopy (h : KernelInv D W k) (hc : k.cpuProc = some c)
    (hcall : k.call c = .fork np) {dir : Option Nat}
    (hs : forkCopy k c np dir = .ok k') : KernelInv D W k' := by
  have hact := h.cpu c hc
  have hnew : (k.call c).newSlot = some np := by rw [hcall]; rfl
  have hok : NewProc k.view np := by
    have := h.inv.calls c
    rwa [hcall] at this
  have hnc : c ≠ np := (h.inv.new_ne hnew (.inl hact)).symm
  cases dir with
  | none =>
    cases hs
    have hset := (h.setNew (f := fun q =>
      { q with pgdir := none, kstack := false, state := .UNUSED }) hnew (.inl rfl)).ret c (-1)
    rwa [setCall_ret] at hset
  | some d =>
    obtain ⟨k₁, hk₁, hs⟩ := bind_eq_ok.mp hs
    obtain ⟨hfresh, rfl⟩ := newDir_ok hk₁
    obtain ⟨m, _, hs⟩ := bind_eq_ok.mp hs
    cases hs
    have hset := h.setNew (f := fun q => copyFiles (k.proc c)
      { q with pgdir := some d, sz := (k.proc m).sz, parent := some c }) hnew (.inr hok.life)
    have hview := view_setProc (k := k) (p := np) fun q => copyFiles (k.proc c)
      { q with pgdir := some d, sz := (k.proc m).sz, parent := some c }
    have hself : ((k.setProc np fun q => copyFiles (k.proc c)
        { q with pgdir := some d, sz := (k.proc m).sz, parent := some c }).view np) =
        { k.view np with pgdir := some d } := by rw [hview, Function.update_self]; rfl
    refine ⟨?_, hset.cpu, hset.walks⟩
    have hin : Inv D _ (Function.update _ c (.forkCopied np)) (d :: k.dirs) :=
      hset.inv.enterCopied (Function.update_self ..) (hset.cpu c hc) ?_ ?_ hfresh
        (h.inv.new_only hnew)
    · rw [Kernel.setCall, Function.update_idem] at hin
      exact hin
    · rw [view_setCall]
      exact ⟨by rw [hself]; exact hok.life, by rw [hself]; exact hok.main,
        by rw [hself]; exact hok.tid, by rw [hself]; exact hok.next⟩
    · rw [view_setCall, hself]

theorem KernelInv.forkRun (h : KernelInv D W k) (hc : k.cpuProc = some c)
    (hcall : k.call c = .forkCopied np) : KernelInv D W (Thread.forkRun k c np) := by
  have hemb : (k.view np).life = .embryo := h.inv.new_embryo (c := c) (by rw [hcall]; rfl)
  have hnc : np ≠ c := h.inv.new_ne (by rw [hcall]; rfl) (.inl (h.cpu c hc))
  have hview : (Thread.forkRun k c np).view =
      Function.update k.view np { k.view np with life := .active } := by
    rw [Thread.forkRun, view_ret, view_setProc]
    rfl
  refine ⟨?_, fun c' hc' => ?_, fun hW => ?_⟩
  · rw [hview]
    exact h.inv.forkRun hcall
  · rw [hview, show c' = c from Option.some.inj (hc'.symm.trans hc),
      Function.update_of_ne hnc.symm]
    exact h.cpu c hc
  · rw [hview]
    exact (h.walks hW).setDead (not_live_of_embryo hemb)

/-! ### `thread_create` -/

theorem view_attach (hm : np ≠ m) : (attach k c m np).view =
    Function.update (Function.update k.view m
      { k.view m with createNum := (k.view m).createNum + 1 }) np
      { k.view np with
        main := some m, pid := (k.view m).pid, tid := (k.view m).createNum + 1,
        pgdir := (k.view c).pgdir } := by
  rw [attach, view_setProc, view_setProc]
  congr 1
  by_cases hcm : c = m
  · subst hcm; simp [Kernel.setProc, Kernel.view, Proc.view, hm]
  · simp [Kernel.setProc, Kernel.view, Proc.view, hm, hcm]

/-- `thread_create` of a process whose list is intact either exceeds the memory limit, or leaves
    the lock held, or appends the new thread to the list. -/
theorem KernelInv.createFinish_ok (h : KernelInv D W k) (hc : k.cpuProc = some c)
    (hcall : k.call c = .create m np) {ok : Bool} (hs : createFinish k c m np ok = .ok k') :
    (overLimit k m (stackSize k m ok) ∧ k' = (attach k c m np).ret c (-1)) ∨
      (¬ overLimit k m (stackSize k m ok) ∧
        k' = { ((((attach k c m np).setProc np fun q =>
          { q with sz := stackSize k m ok }).setProc m fun q =>
          { q with sz := stackSize k m ok }).setProc np fun q =>
          { q with state := .UNUSED }).ret c (-1) with ptableLocked := true }) ∨ (¬ overLimit k m (stackSize k m ok) ∧
      stackSize k m ok ≠ 0 ∧
      ∃ ys z, Chain k.next (some m) (ys ++ [z]) ∧ (∀ q, q ∈ ys ++ [z] ↔ Member k.view m q) ∧
        k' = setSz (linked ((((attach k c m np).setProc np fun q =>
          { q with sz := stackSize k m ok }).setProc m fun q =>
          { q with sz := stackSize k m ok }).ret c 0) c z np) (stackSize k m ok)
          (ys ++ [z] ++ [np])) := by
  have hact := h.cpu c hc
  have hnew : (k.call c).newSlot = some np := by rw [hcall]; rfl
  have hok := h.inv.calls c
  rw [hcall] at hok
  obtain ⟨hemb, hm⟩ := hok
  obtain ⟨hmc, hlead, hmact⟩ := h.inv.leader_of_active hact hm
  have hnm : np ≠ m := h.inv.new_ne hnew hlead.1
  have hnc : np ≠ c := h.inv.new_ne hnew hmc.1
  have hlimit : overLimit (attach k c m np) m (stackSize k m ok) ↔
      overLimit k m (stackSize k m ok) := by
    have hml : ((attach k c m np).proc m).memoryLimit = (k.proc m).memoryLimit := by
      simp [attach, Kernel.setProc, hnm.symm]
    rw [overLimit, overLimit, hml]
  rw [Thread.createFinish] at hs
  simp only [hlimit] at hs
  split at hs
  · cases hs
    exact .inl ⟨‹_›, rfl⟩
  · rename_i hover
    split at hs
    · cases hs
      exact .inr (.inl ⟨hover, rfl⟩)
    · rename_i hne
      obtain ⟨xs, hxs, hx⟩ := (h.inv.groups m).list hlead hmact
      have hnx : np ∉ xs := fun hn => not_live_of_embryo hemb ((hx np).mp hn).1
      have hcx : c ∈ xs := (hx c).mpr hmc
      obtain ⟨ys, z, rfl⟩ := List.eq_nil_or_concat xs |>.resolve_left (List.ne_nil_of_mem hcx)
      rw [List.concat_eq_append] at *
      refine .inr (.inr ⟨hover, hne, ys, z, hxs, hx, ?_⟩)
      generalize hk₁ : ((((attach k c m np).setProc np fun q =>
          { q with sz := stackSize k m ok }).setProc m fun q =>
          { q with sz := stackSize k m ok }).ret c 0) = k₁ at hs ⊢
      have hview : k₁.view = (attach k c m np).view := by
        rw [← hk₁, view_ret, view_setSize, view_setSize]
      rw [view_attach hnm] at hview
      have hmain : (k₁.view c).main = some m := by
        rw [hview, Function.update_of_ne hnc.symm]
        by_cases hcm : c = m
        · subst hcm; rw [Function.update_self]; exact hm
        · rw [Function.update_of_ne hcm]; exact hm
      have hxs₁ : Chain k₁.next (some m) (ys ++ [z]) := hxs.congr fun a ha => by
        show (k₁.view a).next = _
        have han : a ≠ np := fun han => hnx (han ▸ ha)
        rw [hview, Function.update_of_ne han]
        by_cases ham : a = m
        · subst ham; rw [Function.update_self]
        · rw [Function.update_of_ne ham]
      rw [linkThread_eq _ hxs₁ hcx hnx hmain] at hs
      exact (Except.ok.inj hs).symm

theorem KernelInv.createFinish (h : KernelInv D W k) (hc : k.cpuProc = some c)
    (hcall : k.call c = .create m np) {ok : Bool}
    (hs : createFinish k c m np ok = .ok k') (hfree : k'.ptableLocked = false) :
    KernelInv D W k' := by
  have hact := h.cpu c hc
  have hnew : (k.call c).newSlot = some np := by rw [hcall]; rfl
  have hok := h.inv.calls c
  rw [hcall] at hok
  obtain ⟨hemb, hm⟩ := hok
  obtain ⟨hmc, hlead, hmact⟩ := h.inv.leader_of_active hact hm
  have hnc : np ≠ c := h.inv.new_ne hnew (.inl hact)
  have hnm : np ≠ m := h.inv.new_ne hnew hlead.1
  rcases h.createFinish_ok hc hcall hs with ⟨_, rfl⟩ | ⟨_, rfl⟩ | ⟨_, _, ys, z, hxs, hx, rfl⟩
  · -- the slot is lost
    have hview := view_attach (k := k) (c := c) hnm
    rw [Function.update_comm hnm.symm] at hview
    generalize hw : ({ k.view np with
        main := some m, pid := (k.view m).pid, tid := (k.view m).createNum + 1,
        pgdir := (k.view c).pgdir } : View) = w at hview
    have hdead : Inv D (Function.update k.view np w) (Function.update k.call c .user) k.dirs := by
      refine (h.inv.toUser c).setDead (not_live_of_embryo hemb) (.inr ?_) (fun q hq hmq => ?_)
        (h.inv.new_only hnew)
      · rw [← hw]; exact hemb
      · exact h.inv.no_members (by rw [hemb]; simp) (.inr hemb) ⟨hq, hmq⟩
    have hkm : Function.update k.view np w m = k.view m := Function.update_of_ne hnm.symm ..
    have hbump := hdead.bump (m := m) (n := (k.view m).createNum + 1)
      (by rw [Live, hkm]; exact hlead.1) (by rw [hkm]; omega)
    rw [hkm, ← hview] at hbump
    have hlive : ∀ q, Live k.view q → (attach k c m np).view q = { k.view q with
        createNum := ((attach k c m np).view q).createNum } := by
      intro q hq
      have hqn : q ≠ np := fun hqn => not_live_of_embryo hemb (hqn ▸ hq)
      rw [hview]
      by_cases hqm : q = m
      · subst hqm; rw [Function.update_self]
      · rw [Function.update_of_ne hqm, Function.update_of_ne hqn]
    refine ⟨?_, fun c' hc' => ?_, fun hW => ?_⟩
    · rw [view_ret]
      exact hbump
    · rw [view_ret, hlive c' (.inl (h.cpu c' hc'))]
      exact h.cpu c' hc'
    · rw [view_ret]
      refine (h.walks hW).mono fun q hq => ?_
      rw [hlive q hq]
      exact ⟨rfl, rfl⟩
  · cases hfree
  · generalize hk₁ : ((((attach k c m np).setProc np fun q =>
        { q with sz := stackSize k m ok }).setProc m fun q =>
        { q with sz := stackSize k m ok }).ret c 0) = k₁
    have hview : k₁.view = (attach k c m np).view := by
      rw [← hk₁, view_ret, view_setSize, view_setSize]
    rw [view_attach hnm] at hview
    have hother : ∀ q, q ≠ np → k₁.view q = { k.view q with
        createNum := if q = m then (k.view q).createNum + 1 else (k.view q).createNum } := by
      intro q hq
      rw [hview, Function.update_of_ne hq]
      by_cases hqm : q = m
      · subst hqm; simp
      · simp [hqm]
    have hzn : z ≠ np := fun hzn => not_live_of_embryo hemb ((hx np).mp (by simp [hzn])).1
    generalize hk' : setSz (linked k₁ c z np) (stackSize k m ok) (ys ++ [z] ++ [np]) = k'
    have hv : k'.view = (linked k₁ c z np).view := by rw [← hk', view_setSz]
    rw [view_linked hzn] at hv
    have hrest : ∀ q, q ≠ np → k'.view q = { k.view q with
        next := if q = z then some np else (k.view q).next
        createNum := if q = m then (k.view q).createNum + 1 else (k.view q).createNum } := by
      intro q hq
      rw [hv, Function.update_of_ne hq]
      by_cases hqz : q = z
      · subst hqz; simp [hother q hq]
      · simp [hqz, hother q hq]
    have hself : k'.view np = { k₁.view np with
        next := none, life := .active, join := some c } := by
      rw [hv, Function.update_self]
    rw [hview, Function.update_self] at hself
    have hsame : k'.call = Function.update k.call c .user ∧ k'.dirs = k.dirs ∧
        k'.cpuProc = k.cpuProc ∧ k'.walk = k.walk := by
      rw [← hk', setSz_eq, ← hk₁]
      exact ⟨rfl, rfl, rfl, rfl⟩
    refine ⟨?_, fun c' hc' => ?_, fun hW => ?_⟩
    · rw [hsame.1, hsame.2.1]
      exact (h.inv.toUser c).create (w := k'.view np) hact hm hemb
        (h.inv.new_only hnew) hxs hx
        (by rw [hself]; exact ⟨rfl, rfl, rfl, rfl, rfl, rfl⟩) rfl hrest
    · rw [hsame.2.2.1] at hc'
      rw [show c' = c from Option.some.inj (hc'.symm.trans hc), hrest c hnc.symm]
      exact hact
    · rw [hsame.2.2.2]
      refine (h.walks hW).mono fun q hq => ?_
      rw [hrest q fun hqn => not_live_of_embryo hemb (hqn ▸ hq)]
      exact ⟨rfl, rfl⟩

/-! ### `exit`, `thread_exit` and `exec` -/

/-- The loop over the list of a process releases all its threads except `c`. -/
theorem KernelInv.freeThreads (h : KernelInv D W k) (hact : (k.view c).life = .active)
    (hm : (k.view c).main = some m) (cond : Kernel → Slot → Bool) (hc : ∀ k, cond k c = false)
    (hloc : ∀ k k' p, k'.proc p = k.proc p → k'.proc c = k.proc c → cond k' p = cond k p)
    (hcond : ∀ q, Member k.view m q → q ≠ c → cond k q = true) :
    ∃ k', freeThreads cond (2 * NPROC) k (some m) = .ok k' ∧ k'.dirs = k.dirs ∧
      k'.cpuProc = k.cpuProc ∧ (∀ q, Member k.view m q → q ≠ c →
        k'.proc q = (freeThread k q).proc q ∧ k'.call q = .user ∧ k'.walk q = .idle) ∧
      ∀ q, ¬ (Member k.view m q ∧ q ≠ c) →
        k'.proc q = k.proc q ∧ k'.call q = k.call q ∧ k'.walk q = k.walk q := by
  obtain ⟨_, hlead, hmact⟩ := h.inv.leader_of_active hact hm
  obtain ⟨xs, hxs, hx⟩ := (h.inv.groups m).list hlead hmact
  have hlen : xs.length ≤ NPROC := by simpa using hxs.length_le
  refine ⟨_, freeThreads_eq cond hc hloc hxs (by omega), rfl, rfl, fun q hq hqc => ?_, fun q hq => ?_⟩
  · have hif : q ∈ xs ∧ cond k q = true := ⟨(hx q).mpr hq, hcond q hq hqc⟩
    exact ⟨if_pos hif, if_pos hif, if_pos hif⟩
  · have hif : ¬ (q ∈ xs ∧ cond k q = true) := by
      rintro ⟨hqx, hcq⟩
      refine hq ⟨(hx q).mp hqx, ?_⟩
      rintro rfl
      rw [hc k] at hcq
      cases hcq
    exact ⟨if_neg hif, if_neg hif, if_neg hif⟩

/-- The same for the views. -/
theorem view_of_freed {q : Slot} (h : k'.proc q = (freeThread k q).proc q) :
    k'.view q = (k.view q).freed := by
  rw [Kernel.view, h]
  show (freeThread k q).view q = _
  rw [view_freeThread, Function.update_self]

theorem view_of_proc {q : Slot} (h : k'.proc q = k.proc q) : k'.view q = k.view q := by
  rw [Kernel.view, h, Kernel.view]

theorem view_zombie (retval : Nat) : (zombie k c retval).view =
    Function.update k.view c { k.view c with life := .zombie } := by
  rw [zombie, view_setWalk, view_setCall, view_setProc]
  rfl

theorem zombie_call (retval : Nat) :
    (zombie k c retval).call = Function.update k.call c .user := rfl

theorem zombie_walk (retval : Nat) :
    (zombie k c retval).walk = Function.update k.walk c .idle := rfl

theorem zombie_dirs (retval : Nat) : (zombie k c retval).dirs = k.dirs := rfl

/-- What `exit` of `c` and the end of its `exec` do: the other threads of the process are
    released, `c` is out of its call, and all other slots are as before. -/
structure Released (k k' : Kernel) (c m : Slot) : Prop where
  run : Runs k.view m c
  freed : ∀ q, Member k.view m q → q ≠ c → k'.view q = (k.view q).freed
  rest : ∀ q, ¬ Member k.view m q → k'.view q = k.view q
  callIn : ∀ q, Member k.view m q → k'.call q = .user ∧ k'.walk q = .idle
  callOut : ∀ q, ¬ Member k.view m q → k'.call q = k.call q ∧ k'.walk q = k.walk q

theorem Released.walks (h : Released k k' c m) (hw : Walks k.view k.walk) :
    Walks k'.view k'.walk :=
  hw.endGroup (m := m) (fun q hq => ⟨h.rest q hq, (h.callOut q hq).2⟩) fun q hq => (h.callIn q hq).2

/-- `exit` of a process whose list is intact. -/
theorem KernelInv.exit_ok (h : KernelInv D W k) (hc : k.cpuProc = some c)
    (hs : exit k c = .ok k') : ∃ m, Released k k' c m ∧
      k'.view c = { k.view c with life := .zombie } ∧ k'.dirs = k.dirs ∧ k'.cpuProc = none := by
  have hact := h.cpu c hc
  obtain ⟨m, hm⟩ := (h.inv.slots c).main (.inl hact)
  obtain ⟨hmc, hlead, _⟩ := h.inv.leader_of_active hact hm
  have hg := h.inv.groups m
  have hcond : ∀ q, Member k.view m q → q ≠ c → otherThread c k q = true := by
    intro q hq hqc
    have hpid : (k.view q).pid = (k.view c).pid := by
      rw [hg.pid hlead q hq, hg.pid hlead c hmc]
    have htid : (k.view q).tid ≠ (k.view c).tid := fun ht => hqc (hg.tidInj hlead q c hq hmc ht)
    simpa [otherThread] using ⟨hpid, htid⟩
  obtain ⟨k₁, hk₁, hdirs, _, hin, hout⟩ := h.freeThreads hact hm (otherThread c)
    (by simp [otherThread]) (fun k k' p hp hc => by simp [otherThread, hp, hc]) hcond
  rw [Thread.exit, show (k.proc c).mainThread = some m from hm, hk₁] at hs
  cases hs
  have hself := hout c fun hh => hh.2 rfl
  have hne : ∀ q, ¬ Member k.view m q → q ≠ c := fun q hq hqc => hq (hqc ▸ hmc)
  refine ⟨m, ⟨⟨hact, hm⟩, fun q hq hqc => ?_, fun q hq => ?_, fun q hq => ?_, fun q hq => ?_⟩, ?_,
    ?_, rfl⟩
  · rw [view_zombie, view_reparent, view_wakeup1, Function.update_of_ne hqc]
    exact view_of_freed (hin q hq hqc).1
  · rw [view_zombie, view_reparent, view_wakeup1, Function.update_of_ne (hne q hq)]
    exact view_of_proc (hout q fun hh => hq hh.1).1
  · rw [zombie_call, zombie_walk, call_reparent, walk_reparent]
    by_cases hqc : q = c
    · subst hqc; rw [Function.update_self, Function.update_self]; exact ⟨rfl, rfl⟩
    · rw [Function.update_of_ne hqc, Function.update_of_ne hqc]; exact (hin q hq hqc).2
  · rw [zombie_call, zombie_walk, call_reparent, walk_reparent, Function.update_of_ne (hne q hq),
      Function.update_of_ne (hne q hq)]
    exact (hout q fun hh => hq hh.1).2
  · rw [view_zombie, view_reparent, view_wakeup1, Function.update_self, view_of_proc hself.1]
  · rw [zombie_dirs, dirs_reparent]
    exact hdirs

theorem KernelInv.exit (h : KernelInv D W k) (hc : k.cpuProc = some c)
    (hdir : D → ∀ m, (k.proc c).mainThread = some m → (k.proc m).pgdir = (k.proc c).pgdir)
    (hs : exit k c = .ok k') : KernelInv D W k' := by
  obtain ⟨m, hrel, hself, hdirs, hcpu⟩ := h.exit_ok hc hs
  obtain ⟨hact, hm⟩ := hrel.run
  refine ⟨?_, fun c' hc' => ?_, fun hW => hrel.walks (h.walks hW)⟩
  · rw [hdirs]
    exact h.inv.exit hact hm (fun hD _ => hdir hD m hm) hrel.freed hself hrel.rest
      (fun q hq => (hrel.callIn q hq).1) fun q hq => (hrel.callOut q hq).1
  · rw [hcpu] at hc'
    cases hc'

theorem KernelInv.threadExit (h : KernelInv D W k) (hc : k.cpuProc = some c) {retval : Nat}
    (hcall : k.call c = .threadExit retval) : KernelInv D W (Thread.threadExit k c retval) := by
  have hact := h.cpu c hc
  have hcm : (k.view c).main ≠ some c := by
    have := h.inv.calls c
    rwa [hcall] at this
  obtain ⟨m, hm⟩ := (h.inv.slots c).main (.inl hact)
  have hne : c ≠ m := fun hh => hcm (hh ▸ hm)
  have hinv := (h.inv.toUser c).threadExit hact hm hne (Function.update_self ..)
  rw [Thread.threadExit]
  refine ⟨?_, fun c' hc' => (by cases hc'), fun hW => ?_⟩
  · rw [view_zombie, view_reparent, view_wakeup1, zombie_call, zombie_dirs, call_reparent,
      dirs_reparent]
    exact hinv
  · rw [view_zombie, view_reparent, view_wakeup1, zombie_walk, walk_reparent]
    refine (h.walks hW).release (S := fun _ => False) (fun m' q hq _ => ?_) (fun m' q hq _ => ?_)
      (fun q => ?_) fun _ _ hp => hp.elim
    · by_cases hqc : q = c
      · subst hqc; rw [Function.update_self]; exact .inr rfl
      · exact .inl (hq.congr (Function.update_of_ne hqc ..))
    · by_cases hqc : q = c
      · subst hqc
        rw [Member, Live, Function.update_self]
        exact ⟨.inr rfl, hq.2⟩
      · exact hq.congr (Function.update_of_ne hqc ..)
    · by_cases hqc : q = c
      · subst hqc; rw [Function.update_self]; exact .inr rfl
      · rw [Function.update_of_ne hqc]; exact .inl ⟨rfl, id⟩

theorem KernelInv.exitBegin (h : KernelInv D W k) (hc : k.cpuProc = some c)
    (hs : exitBegin k c = .ok k') : KernelInv D W k' := by
  rw [Thread.exitBegin] at hs
  split at hs
  · cases hs
  · obtain ⟨m, hm, hs⟩ := bind_eq_ok.mp hs
    cases hs
    refine (h.enter (x := .exit) (h.cpu c hc) trivial (by simp) rfl).setWalk fun _ p hp => ?_
    cases hp
    obtain ⟨_, hlead, _⟩ := h.inv.leader_of_active (h.cpu c hc) (deref_ok hm)
    exact ⟨m, ⟨h.cpu c hc, deref_ok hm⟩, hlead⟩

theorem KernelInv.threadExitBegin (h : KernelInv D W k) (hc : k.cpuProc = some c) {retval : Nat}
    (hs : threadExitBegin k c retval = .ok k') : KernelInv D W k' := by
  rw [Thread.threadExitBegin] at hs
  split at hs
  · exact h.exitBegin hc hs
  · rename_i hmain
    cases hs
    exact (h.enter (x := .threadExit retval) (h.cpu c hc) hmain (by simp) rfl).setWalk
      fun _ p hp => by cases hp

theorem closeFile_ok {fd : Nat} (hs : closeFile k p fd = .ok k') :
    ∃ f : Proc → Proc, (∀ q, ∃ o w, f q = { q with ofile := o, cwd := w }) ∧
      k' = k.setProc p f := by
  rw [closeFile] at hs
  split at hs
  · cases hs
    exact ⟨_, fun q => ⟨_, q.cwd, rfl⟩, rfl⟩
  · split at hs
    · cases hs
    · cases hs
      exact ⟨_, fun q => ⟨q.ofile, none, rfl⟩, rfl⟩

theorem KernelInv.closeFile (h : KernelInv D W k) {fd : Nat} (hs : closeFile k p fd = .ok k') :
    KernelInv D W k' := by
  obtain ⟨f, hf, rfl⟩ := closeFile_ok hs
  obtain ⟨o, w, hq⟩ := hf (k.proc p)
  exact h.setProc (by rw [hq]; rfl)

/-- The threads of a process are linked to threads of the process. -/
theorem KernelInv.next_member (h : KernelInv D W k) (hc : Runs k.view m c)
    (hp : Member k.view m p) {p' : Slot} (hnext : (k.proc p).nextThread = some p') :
    Member k.view m p' := by
  obtain ⟨_, hlead, hmact⟩ := h.inv.leader_of_active hc.1 hc.2
  obtain ⟨xs, hxs, hx⟩ := (h.inv.groups m).list hlead hmact
  have hl : Linked (fun i => (k.view i).next) (some m) p := hxs.linked_iff.mpr ((hx p).mpr hp)
  exact (hx p').mp (hxs.linked_iff.mp (hl.step hnext))

theorem KernelInv.closeFiles (h : KernelInv D W k)
    (hs : closeFiles k c = .ok k') : KernelInv D W k' := by
  rw [Thread.closeFiles] at hs
  split at hs
  · cases hs
  · cases hs
  · rename_i p hw
    cases hs
    refine h.setWalk fun hW p' hp' => h.walks hW c p' ?_
    rw [hw]
    split at hp' <;> exact hp'
  · rename_i p fd hw
    obtain ⟨k₁, hk₁, hs⟩ := bind_eq_ok.mp hs
    cases hs
    have h₁ := h.closeFile hk₁
    obtain ⟨f, _, rfl⟩ := closeFile_ok hk₁
    refine h₁.setWalk fun hW p' hp' => h₁.walks hW c p' ?_
    show (k.walk c).target = _
    rw [hw]
    split at hp' <;> exact hp'
  · rename_i p hw
    split at hs
    · rename_i p' hnext
      cases hs
      refine h.setWalk fun hW q hq => ?_
      cases hq
      obtain ⟨m, hmc, hmp⟩ := h.walks hW c p (by rw [hw]; rfl)
      exact ⟨m, hmc, h.next_member hmc hmp hnext⟩
    · cases hs
      refine h.setWalk fun hW q hq => ?_
      split at hq <;> cases hq
  · rename_i fd hw
    obtain ⟨k₁, hk₁, hs⟩ := bind_eq_ok.mp hs
    cases hs
    refine (h.closeFile hk₁).setWalk fun hW q hq => ?_
    split at hq <;> cases hq

theorem KernelInv.execCommit (h : KernelInv D W k) (hc : k.cpuProc = some c) (hu : k.call c = .user)
    {d sz : Nat} (hs : execCommit k c d sz = .ok k') : KernelInv D W k' := by
  have hact := h.cpu c hc
  obtain ⟨m, hm⟩ := (h.inv.slots c).main (.inl hact)
  rw [Thread.execCommit] at hs
  split at hs
  · cases hs
  obtain ⟨k₁, hk₁, hs⟩ := bind_eq_ok.mp hs
  obtain ⟨hfresh, rfl⟩ := newDir_ok hk₁
  obtain ⟨m', hm', hs⟩ := bind_eq_ok.mp hs
  generalize hk₂ : ({ k with dirs := d :: k.dirs }.setProc c fun q =>
    { q with pgdir := some d, sz := sz }) = k₂ at hs hm'
  have hview : k₂.view = Function.update k.view c { k.view c with pgdir := some d } := by
    rw [← hk₂, view_setProc]
    rfl
  have hlife : ∀ q, (k₂.view q).life = (k.view q).life ∧ (k₂.view q).main = (k.view q).main := by
    intro q
    rw [hview]
    by_cases hqc : q = c
    · subst hqc; rw [Function.update_self]; exact ⟨rfl, rfl⟩
    · rw [Function.update_of_ne hqc]; exact ⟨rfl, rfl⟩
  have hinv : ∀ x, x = .user ∨ x = .exec (k.view c).pgdir → KernelInv D W (k₂.setCall c x) := by
    intro x hx
    refine ⟨?_, fun c' hc' => ?_, fun hW => ?_⟩
    · rw [view_setCall, hview, ← hk₂]
      exact h.inv.execCommit (x := x) hact hm hu hfresh hx
    · rw [← hk₂] at hc'
      rw [view_setCall, hview, show c' = c from Option.some.inj (hc'.symm.trans hc),
        Function.update_self]
      exact hact
    · have := (h.walks hW).mono fun q _ => hlife q
      rw [view_setCall, ← hk₂]
      rw [← hk₂] at this
      exact this
  split at hs
  · cases hs
    rw [← setCall_ret .user]
    exact (hinv .user (.inl rfl)).ret c (-1)
  · cases hs
    refine KernelInv.setWalk ?_ fun _ p hp => ?_
    · have hpg : (k.proc c).pgdir = (k.view c).pgdir := rfl
      exact hinv _ (.inr rfl)
    · cases hp
      have hmm : (k₂.view c).main = some m' := deref_ok hm'
      rw [(hlife c).2] at hmm
      obtain ⟨_, hlead, _⟩ := h.inv.leader_of_active hact hmm
      refine ⟨m', ?_, ?_⟩
      · rw [view_setCall, Runs, (hlife c).1, (hlife c).2]
        exact ⟨hact, hmm⟩
      · rw [view_setCall, Member, Live, (hlife m').1, (hlife m').2]
        exact hlead

/-- The end of `exec` of a process whose list is intact. -/
theorem KernelInv.execFinish_ok (h : KernelInv D W k) (hc : k.cpuProc = some c) {old : Option Nat}
    (hs : execFinish k c old = .ok k') : ∃ m d, old = some d ∧ Released k k' c m ∧
      k'.view c = { k.view c with main := some c, tid := 0, createNum := 0, next := none } ∧
      k'.dirs = (k.dirs.filter fun e => e ≠ d) ∧ k'.cpuProc = k.cpuProc := by
  have hact := h.cpu c hc
  obtain ⟨m, hm⟩ := (h.inv.slots c).main (.inl hact)
  have hmc : Member k.view m c := ⟨.inl hact, hm⟩
  obtain ⟨k₁, hk₁, hdirs, hcpu, hin, hout⟩ := h.freeThreads hact hm (fun _ p => p ≠ c)
    (by simp) (fun _ _ _ _ _ => rfl) (fun q _ hqc => by simpa using hqc)
  obtain ⟨k₂, hk₂, hs⟩ := bind_eq_ok.mp hs
  rw [killForExec, show (k.proc c).mainThread = some m from hm, hk₁] at hk₂
  cases hk₂
  obtain ⟨d, rfl, rfl⟩ := freevm_ok hs
  have hself := hout c fun hh => hh.2 rfl
  have hne : ∀ q, ¬ Member k.view m q → q ≠ c := fun q hq hqc => hq (hqc ▸ hmc)
  generalize hk₂ : (k₁.setProc c fun q =>
    { q with mainThread := some c, isThread := false, tid := 0, currentThread := some c,
             createNum := 0, nextThread := none }) = k₂
  have hview : k₂.view = Function.update k₁.view c { k₁.view c with
      main := some c, tid := 0, createNum := 0, next := none } := by
    rw [← hk₂, view_setProc]
    rfl
  generalize hk' : ({ (k₂.ret c 0).setWalk c .idle with
      dirs := ((k₂.ret c 0).setWalk c .idle).dirs.filter fun e => e ≠ d } : Kernel) = k'
  have hview' : k'.view = k₂.view := by
    rw [← hk']
    exact view_ret 0
  have hcall : k'.call = Function.update k₁.call c .user ∧ k'.walk = Function.update k₁.walk c .idle :=
    by rw [← hk', ← hk₂]; exact ⟨rfl, rfl⟩
  refine ⟨m, d, rfl, ⟨⟨hact, hm⟩, fun q hq hqc => ?_, fun q hq => ?_, fun q hq => ?_,
    fun q hq => ?_⟩, ?_, ?_, ?_⟩
  · rw [hview', hview, Function.update_of_ne hqc]
    exact view_of_freed (hin q hq hqc).1
  · rw [hview', hview, Function.update_of_ne (hne q hq)]
    exact view_of_proc (hout q fun hh => hq hh.1).1
  · rw [hcall.1, hcall.2]
    by_cases hqc : q = c
    · subst hqc; rw [Function.update_self, Function.update_self]; exact ⟨rfl, rfl⟩
    · rw [Function.update_of_ne hqc, Function.update_of_ne hqc]; exact (hin q hq hqc).2
  · rw [hcall.1, hcall.2, Function.update_of_ne (hne q hq), Function.update_of_ne (hne q hq)]
    exact (hout q fun hh => hq hh.1).2
  · rw [hview', hview, Function.update_self, view_of_proc hself.1]
  · rw [← hk', ← hk₂, ← hdirs]
    rfl
  · rw [← hk', ← hk₂]
    exact hcpu

theorem KernelInv.execFinish (h : KernelInv D W k) (hc : k.cpuProc = some c) {old : Option Nat}
    (hcall : k.call c = .exec old) (hs : execFinish k c old = .ok k') : KernelInv D W k' := by
  obtain ⟨m, d, rfl, hrel, hself, hdirs, hcpu⟩ := h.execFinish_ok hc hs
  obtain ⟨hact, hm⟩ := hrel.run
  refine ⟨?_, fun c' hc' => ?_, fun hW => hrel.walks (h.walks hW)⟩
  · rw [hdirs]
    exact h.inv.execFinish hact hm hcall hrel.freed hself hrel.rest
      (fun q hq => (hrel.callIn q hq).1) fun q hq => (hrel.callOut q hq).1
  · rw [hcpu] at hc'
    rw [show c' = c from Option.some.inj (hc'.symm.trans hc), hself]
    exact hact

/-! ### `wait` -/

/-- A zombie that is a main thread, or whose main thread was released, is the last thread of its
    process, and uses the directory of its main thread. -/
theorem Inv.last_thread {v : Slot → View} {call : Slot → Call} {dirs : List Nat}
    (h : Inv D v call dirs) (hz : (v p).life = .zombie) (hm : (v p).main = some m)
    (hlast : p = m ∨ (v m).life = .unused) :
    (∀ q, Member v m q → q = p) ∧ (D → (v m).pgdir = (v p).pgdir) := by
  rcases (h.groups m).kind p ⟨.inr hz, hm⟩ with hl | ho
  · have hpm : p = m := hlast.resolve_right fun hu => not_live_of_unused hu hl.1
    subst hpm
    exact ⟨(h.groups p).ended hl hz, fun _ => rfl⟩
  · exact ⟨ho.alone, ho.pgdir⟩

theorem zombieChild_spec (h : zombieChild k c = some p) : (k.view p).life = .zombie := by
  have := List.find?_some h
  simp only [decide_eq_true_eq] at this
  simp [Kernel.view, Proc.view, this.2, ProcState.life]

/-- What `wait` frees when it reaps the last thread of a process. -/
theorem KernelInv.reap_ok (h : KernelInv D W k) (hp : zombieChild k c = some p)
    (hok : LastThread k p) (hs : reap k c p = .ok k') :
    ∃ m d, (k.view p).main = some m ∧ (k.view m).pgdir = some d ∧
      (D → (k.view p).pgdir = some d) ∧ (∀ q, Member k.view m q → q = p) ∧
      k' = ({ k with dirs := k.dirs.filter fun e => e ≠ d }.setProc p fun q =>
        { q with kstack := false, pid := 0, parent := none, killed := false, state := .UNUSED }).ret
        c (k.proc p).pid := by
  have hz := zombieChild_spec hp
  obtain ⟨m, hm, hs⟩ := bind_eq_ok.mp hs
  have hm' : (k.view p).main = some m := deref_ok hm
  obtain ⟨k₁, hk₁, hs⟩ := bind_eq_ok.mp hs
  obtain ⟨d, hd, rfl⟩ := freevm_ok hk₁
  have hd' : (k.view m).pgdir = some d := hd
  obtain ⟨hlast, hpgdir⟩ := h.inv.last_thread hz hm' ((hok m hm').imp_right fun hu => by
    simp [Kernel.view, Proc.view, hu, ProcState.life])
  cases hs
  exact ⟨m, d, hm', hd', fun hD => by rw [← hpgdir hD, hd'], hlast, rfl⟩

theorem KernelInv.wait (h : KernelInv D W k) (hc : k.cpuProc = some c)
    (hok : ∀ p, zombieChild k c = some p → LastThread k p) (hs : wait k c = .ok k') :
    KernelInv D W k' := by
  have hact := h.cpu c hc
  rw [Thread.wait] at hs
  split at hs
  · rename_i p hp
    have hz := zombieChild_spec hp
    obtain ⟨m, d, hm, _, hd, hlast, rfl⟩ := h.reap_ok hp (hok p hp) hs
    refine KernelInv.ret ⟨?_, fun c' hc' => ?_, fun hW => ?_⟩ c _
    · rw [view_setProc]
      exact h.inv.reap hz hm hlast hd
    · have hcc : c' = c := Option.some.inj (hc'.symm.trans hc)
      have hcp : c ≠ p := fun hcp => by rw [← hcp, hact] at hz; cases hz
      rw [view_setProc, hcc, Function.update_of_ne hcp]
      exact hact
    · rw [view_setProc]
      -- the process has no thread left that could be in a loop
      have hnone : ∀ q, (k.walk q).target ≠ some p := by
        intro q hq
        obtain ⟨m', hmq, hmp⟩ := h.walks hW q p hq
        have hmm : m' = m := Option.some.inj (hmp.2.symm.trans hm)
        subst hmm
        have hqp := hlast q ⟨.inl hmq.1, hmq.2⟩
        rw [hqp] at hmq
        exact absurd (hmq.1.symm.trans hz) (by simp)
      refine (h.walks hW).release (S := fun q => q = p)
        (fun m' q hq hqp => .inl (hq.congr (Function.update_of_ne hqp ..)))
        (fun m' q hq hqp => hq.congr (Function.update_of_ne hqp ..)) (fun q => ?_)
        fun q q' hq' _ => hq' ▸ hnone q
      by_cases hqp : q = p
      · refine .inr ?_
        cases ht : (k.walk q).target with
        | none => exact ht
        | some q' =>
          obtain ⟨m', hmq, _⟩ := h.walks hW q q' ht
          rw [hqp, Runs, hz] at hmq
          cases hmq.1
      · exact .inl ⟨rfl, hqp⟩
  · split at hs
    · cases hs
      exact h.ret c (-1)
    · cases hs
      exact (h.enter (x := .wait) hact trivial (by simp) rfl).sleep hact _

/-! ### `thread_join` -/

theorem KernelInv.joinCheck (h : KernelInv D W k) (hc : k.cpuProc = some c)
    (hm : (k.view c).main = some m) (hp : Member k.view m p) (hpm : p ≠ m)
    (hj : (k.view p).join = some c) (hfirst : FirstIfZombie k m p) (hwalk : W → JoinsIdle k p)
    (hs : joinCheck k c m p = .ok k') : KernelInv D W k' := by
  have hact := h.cpu c hc
  by_cases hz : (k.proc p).state = .ZOMBIE
  · have hz' : (k.view p).life = .zombie := by simp [Kernel.view, Proc.view, hz, ProcState.life]
    have hpc : p ≠ c := fun hpc => by rw [hpc, hact] at hz'; cases hz'
    rw [joinCheck_first hz (hfirst hz) hp.2 hpm hpc] at hs
    cases hs
    have hview : (freeThread (unlinked k c m p) p).view =
        Function.update (Function.update k.view m { k.view m with next := (k.view p).next }) p
          (k.view p).freed := by
      rw [view_freeThread, view_unlinked, Function.update_of_ne hpm]
    have hother : ∀ q, q ≠ p → ∀ v', v' = (freeThread (unlinked k c m p) p).view →
        (v' q).life = (k.view q).life ∧ (v' q).main = (k.view q).main := by
      rintro q hq v' rfl
      rw [hview, Function.update_of_ne hq]
      by_cases hqm : q = m
      · subst hqm; rw [Function.update_self]; exact ⟨rfl, rfl⟩
      · rw [Function.update_of_ne hqm]; exact ⟨rfl, rfl⟩
    have hjoined : Inv D (freeThread (unlinked k c m p) p).view
        (Function.update (Function.update k.call p .user) c .user) k.dirs := by
      rw [Function.update_comm hpc]
      refine Inv.toUser ?_ p
      refine (h.inv.toUser c).joined hact hm (Function.update_self ..) hp hpm hz' hj (hfirst hz)
        ?_ ?_ fun q hqp hqm => ?_
      · rw [hview, Function.update_self]
      · rw [hview, Function.update_of_ne hpm.symm, Function.update_self]
      · rw [hview, Function.update_of_ne hqp, Function.update_of_ne hqm]
    refine ⟨?_, fun c' hc' => ?_, fun hW => ?_⟩
    · rw [view_ret]
      exact hjoined
    · have hcc : c' = c := Option.some.inj (hc'.symm.trans hc)
      rw [view_ret, hcc, (hother c hpc.symm _ rfl).1]
      exact hact
    · rw [view_ret]
      show Walks _ (Function.update k.walk p .idle)
      refine (h.walks hW).release (S := fun q => q = p) (fun m' q hq hqp => .inl ?_)
        (fun m' q hq hqp => ?_) (fun q => ?_) fun q q' hq' _ => hq' ▸ hwalk hW hz q
      · rw [Runs, (hother q hqp _ rfl).1, (hother q hqp _ rfl).2]
        exact hq
      · rw [Member, Live, (hother q hqp _ rfl).1, (hother q hqp _ rfl).2]
        exact hq
      · by_cases hqp : q = p
        · subst hqp; rw [Function.update_self]; exact .inr rfl
        · rw [Function.update_of_ne hqp]; exact .inl ⟨rfl, hqp⟩
  · rw [Thread.joinCheck, if_pos hz] at hs
    cases hs
    exact (h.enter (x := .join m p) hact ⟨hm, hp, hpm, hj⟩ (by simp) rfl).sleep hact _

/-- The thread that `thread_join` finds. -/
theorem KernelInv.found_member (h : KernelInv D W k) (hact : (k.view c).life = .active)
    (hm : (k.view c).main = some m) {tid : Nat}
    (hp : walkFind k.next (fun p => (k.proc p).tid = tid ∧ (k.proc p).joinThread = some c) NPROC
      (k.proc m).nextThread = some (some p)) :
    Member k.view m p ∧ p ≠ m ∧ (k.view p).join = some c := by
  obtain ⟨_, hlead, hmact⟩ := h.inv.leader_of_active hact hm
  obtain ⟨xs, hxs, hx⟩ := (h.inv.groups m).list hlead hmact
  have hnd := hxs.nodup
  obtain ⟨t, rfl, ht⟩ := chain_some_iff.mp hxs
  obtain ⟨hl, hj⟩ := walkFind_some hp
  simp only [decide_eq_true_eq] at hj
  have hpt : p ∈ t := ht.linked_iff.mp hl
  refine ⟨(hx p).mp (by simp [hpt]), ?_, hj.2⟩
  rintro rfl
  exact (List.nodup_cons.mp hnd).1 hpt

theorem KernelInv.threadJoin (h : KernelInv D W k) (hc : k.cpuProc = some c) {tid : Nat}
    (hok : KeepsGroups k (.threadJoin tid)) (hwalk : W → LeavesWalks k (.threadJoin tid))
    (hs : threadJoin k c tid = .ok k') : KernelInv D W k' := by
  have hact := h.cpu c hc
  obtain ⟨m, hm, hs⟩ := bind_eq_ok.mp hs
  have hm' : (k.view c).main = some m := deref_ok hm
  split at hs
  · cases hs
  · cases hs; exact h.ret c _
  · rename_i p hp
    obtain ⟨hpm, hpn, hj⟩ := h.found_member hact hm' hp
    exact h.joinCheck hc hm' hpm hpn hj (hok c hc m hm' p hp)
      (fun hW => hwalk hW c hc m hm' p hp) hs

/-! ### `scheduler` -/

theorem pickThread_runnable {n : Nat} {cur t : Slot} (h : pickThread k m n cur = some t) :
    (k.proc t).state = .RUNNABLE := by
  induction n generalizing cur with
  | zero => cases h
  | succ n ih =>
    rw [pickThread] at h
    split at h
    · cases h; assumption
    · exact ih h

theorem KernelInv.schedule (h : KernelInv D W k) (hs : schedule k = .ok k') : KernelInv D W k' := by
  rw [Thread.schedule] at hs
  split at hs
  · cases hs
  · split at hs
    · cases hs
      exact h.congr rfl rfl rfl rfl h.cpu
    · rename_i p _
      obtain ⟨m, _, hs⟩ := bind_eq_ok.mp hs
      obtain ⟨cur, _, hs⟩ := bind_eq_ok.mp hs
      split at hs
      · cases hs
      · rename_i t ht
        have hact : (k.view t).life = .active := by
          simp [Kernel.view, Proc.view, pickThread_runnable ht, ProcState.life]
        cases hs
        generalize hk₁ : ({ k with cpuProc := some t, scan := p.val + 1 }.setProc m fun q =>
          { q with currentThread := some t }) = k₁
        have hview : k₁.view = k.view := by
          rw [← hk₁]
          exact view_setProc_eq (k := { k with cpuProc := some t, scan := p.val + 1 }) rfl
        refine h.congr ((view_activate rfl (by rw [hview]; exact hact)).trans hview)
          (by rw [← hk₁]; rfl) (by rw [← hk₁]; rfl) (by rw [← hk₁]; rfl) fun c hc => ?_
        rw [← hk₁] at hc
        cases hc
        exact hact

/-! ### The size of a process -/

/-- `growproc` changes only sizes. -/
theorem growproc_ok {n : Int} {ok : Bool} {r : Option Kernel} (hs : growproc k c n ok = .ok r) :
    r = none ∨ ∃ m sz xs, (k.proc c).mainThread = some m ∧ newSize k m n ok = some sz ∧
      walkList k.next NPROC (some m) = some xs ∧ r = some (setSz k sz xs) := by
  obtain ⟨m, hm, hs⟩ := bind_eq_ok.mp hs
  split at hs
  · cases hs; exact .inl rfl
  · rename_i sz hsz
    split at hs
    · cases hs
    · rename_i xs hxs
      cases hs
      exact .inr ⟨m, sz, xs, deref_ok hm, hsz, hxs, rfl⟩

theorem KernelInv.setSz (h : KernelInv D W k) (sz : Nat) (xs : List Slot) :
    KernelInv D W (setSz k sz xs) := by
  refine h.congr (view_setSz sz xs) ?_ ?_ ?_ ?_ <;> rw [setSz_eq]
  exact h.cpu

theorem KernelInv.sbrkGrow (h : KernelInv D W k) {addr : Nat} {n : Int} {ok : Bool}
    (hs : sbrkGrow k c addr n ok = .ok k') : KernelInv D W k' := by
  obtain ⟨r, hr, hs⟩ := bind_eq_ok.mp hs
  rcases growproc_ok hr with rfl | ⟨m, sz, xs, _, _, _, rfl⟩
  · cases hs; exact h.ret c _
  · cases hs; exact (h.setSz sz xs).ret c _

/-- The slot that `setmemorylimit(pid, limit)` finds. -/
def limitSlot (k : Kernel) (pid : Int) : Option Slot :=
  (List.finRange NPROC).find? fun i => (k.proc i).pid = pid ∧ (k.proc i).isThread = false

/-- `setmemorylimit` changes only a limit. -/
theorem setmemorylimit_ok {pid limit : Int} {r : Option Kernel}
    (hs : setmemorylimit k pid limit = .ok r) :
    r = none ∨ ∃ p m, (k.proc p).mainThread = some m ∧ (k.proc p).pid = pid ∧
      limitSlot k pid = some p ∧ (k.proc p).state ≠ .UNUSED ∧ 0 ≤ limit ∧
      (k.proc p).sz ≤ limit.toNat ∧
      r = some (k.setProc m fun q => { q with memoryLimit := limit.toNat }) := by
  rw [setmemorylimit] at hs
  split at hs
  · cases hs; exact .inl rfl
  · rename_i hneg
    split at hs
    · cases hs; exact .inl rfl
    · rename_i p hp
      have hpid := List.find?_some hp
      simp only [decide_eq_true_eq] at hpid
      split at hs
      · cases hs; exact .inl rfl
      · rename_i hok
        rw [not_or] at hok
        obtain ⟨m, hm, hs⟩ := bind_eq_ok.mp hs
        cases hs
        exact .inr ⟨p, m, deref_ok hm, hpid.1, hp, hok.1, by omega, by omega, rfl⟩

/-- An assignment to a file or to the directory. -/
theorem KernelInv.fdalloc (h : KernelInv D W k) (c : Slot) (f : Nat) :
    KernelInv D W (fdalloc k c f) := by
  rw [Thread.fdalloc]
  split
  · exact h.ret c _
  · exact KernelInv.ret (h.setProc rfl) c _

theorem KernelInv.close (h : KernelInv D W k) (c : Slot) (fd : Fin NOFILE) :
    KernelInv D W (close k c fd) := by
  rw [Thread.close]
  split
  · exact h.ret c _
  · exact KernelInv.ret (h.setProc rfl) c _

theorem KernelInv.kill (h : KernelInv D W k) (c : Slot) (pid : Int) :
    KernelInv D W (kill k c pid) := by
  have hview : (Thread.kill k c pid).view = k.view := view_kill
  rw [Thread.kill] at hview ⊢
  split
  · exact h.ret c _
  · rename_i p hp
    simp only [hp] at hview
    rw [view_ret] at hview
    exact KernelInv.ret (h.congr hview rfl rfl rfl h.cpu) c _

/-! ### The steps -/

/-- Every step that meets the conditions keeps the invariant, as long as the lock is released. -/
theorem KernelInv.step (h : KernelInv D W k) {e : Step} (he : KeepsGroups k e)
    (hD : D → Careful k e) (hW : W → LeavesWalks k e) (hs : step k e = .ok k')
    (hfree : k'.ptableLocked = false) : KernelInv D W k' := by
  rw [Thread.step] at hs
  split at hs
  · cases hs
  cases e with
  | forkAlloc ok =>
    obtain ⟨c, hc, hu, hs⟩ := byUser_ok hs
    cases hs
    refine h.allocproc hc hu (fun p hp => (he p hp).1) (fun _ => rfl) (by simp)
      (fun p hp _ => ?_) ok
    rw [view_initSlot]
    exact ⟨by rw [Function.update_self], by rw [Function.update_self],
      by rw [Function.update_self], by rw [Function.update_self]; exact (he p hp).2⟩
  | forkCopy dir =>
    obtain ⟨c, hc, hs⟩ := byProc_ok hs
    split at hs
    · exact h.forkCopy hc ‹_› hs
    · cases hs
  | forkRun =>
    obtain ⟨c, hc, hs⟩ := byProc_ok hs
    split at hs
    · cases hs; exact h.forkRun hc ‹_›
    · cases hs
  | createAlloc ok =>
    obtain ⟨c, hc, hu, hs⟩ := byUser_ok hs
    obtain ⟨m, hm, hs⟩ := bind_eq_ok.mp hs
    cases hs
    refine h.allocproc hc hu he (fun _ => rfl) (by simp) (fun p hp hpc => ?_) ok
    rw [view_initSlot, CallOk, Function.update_self, Function.update_of_ne hpc.symm]
    exact ⟨rfl, deref_ok hm⟩
  | createFinish ok =>
    obtain ⟨c, hc, hs⟩ := byProc_ok hs
    split at hs
    · rename_i m np hcall
      exact h.createFinish hc hcall hs hfree
    · cases hs
  | exitBegin =>
    obtain ⟨c, hc, _, hs⟩ := byUser_ok hs
    exact h.exitBegin hc hs
  | threadExitBegin retval =>
    obtain ⟨c, hc, _, hs⟩ := byUser_ok hs
    exact h.threadExitBegin hc hs
  | closeFiles =>
    obtain ⟨c, hc, hs⟩ := byProc_ok hs
    exact h.closeFiles hs
  | exit =>
    obtain ⟨c, hc, hs⟩ := byProc_ok hs
    split at hs
    · exact h.exit hc (fun hd m hm => hD hd c hc m hm) hs
    · cases hs
  | threadExit =>
    obtain ⟨c, hc, hs⟩ := byProc_ok hs
    split at hs
    · split at hs
      · cases hs; exact h.threadExit hc ‹_›
      · cases hs
    · cases hs
  | wait =>
    obtain ⟨c, hc, hs⟩ := byProc_ok hs
    split at hs
    · exact h.wait hc (fun p hp => he c hc p hp) hs
    · cases hs
  | threadJoin tid =>
    obtain ⟨c, hc, _, hs⟩ := byUser_ok hs
    exact h.threadJoin hc he hW hs
  | joinCheck =>
    obtain ⟨c, hc, hs⟩ := byProc_ok hs
    split at hs
    · rename_i m p hcall
      obtain ⟨hm, hp, hpm, hj⟩ := h.inv.join_member hcall
      exact h.joinCheck hc hm hp hpm hj (he c hc m p hcall) (fun hw => hW hw c hc m p hcall) hs
    · cases hs
  | execCommit d sz =>
    obtain ⟨c, hc, hu, hs⟩ := byUser_ok hs
    exact h.execCommit hc hu hs
  | execFinish =>
    obtain ⟨c, hc, hs⟩ := byProc_ok hs
    split at hs
    · split at hs
      · exact h.execFinish hc ‹_› hs
      · cases hs
    · cases hs
  | sbrk n =>
    obtain ⟨c, hc, _, hs⟩ := byUser_ok hs
    rw [sbrk] at hs
    split at hs
    · cases hs
      exact h.enter (h.cpu c hc) trivial (by simp) rfl
    · cases hs
  | growproc ok =>
    obtain ⟨c, hc, hs⟩ := byProc_ok hs
    split at hs
    · exact h.sbrkGrow hs
    · cases hs
  | setmemorylimit pid limit =>
    obtain ⟨c, hc, _, hs⟩ := byUser_ok hs
    obtain ⟨r, hr, hs⟩ := bind_eq_ok.mp hs
    rcases setmemorylimit_ok hr with rfl | ⟨p, m, _, _, _, _, _, _, rfl⟩
    · cases hs; exact h.ret c _
    · cases hs; exact KernelInv.ret (h.setProc rfl) c _
  | kill pid =>
    obtain ⟨c, hc, _, hs⟩ := byUser_ok hs
    cases hs
    exact h.kill c pid
  | fdalloc f =>
    obtain ⟨c, hc, _, hs⟩ := byUser_ok hs
    cases hs
    exact h.fdalloc c f
  | close fd =>
    obtain ⟨c, hc, _, hs⟩ := byUser_ok hs
    cases hs
    exact h.close c fd
  | chdir ip =>
    obtain ⟨c, hc, _, hs⟩ := byUser_ok hs
    cases hs
    exact KernelInv.ret (h.setProc rfl) c _
  | sleep chan =>
    obtain ⟨c, hc, hs⟩ := byProc_ok hs
    split at hs
    · cases hs
    · cases hs; exact h.sleep (h.cpu c hc) chan
  | yield =>
    obtain ⟨c, hc, hs⟩ := byProc_ok hs
    cases hs
    exact h.yield (h.cpu c hc)
  | wakeup chan =>
    cases hs
    exact h.congr (view_wakeup1 _) rfl rfl rfl h.cpu
  | schedule => exact h.schedule hs

/-- The first process. -/
def initProc (d : Nat) : Proc :=
  { sz := PGSIZE, pgdir := some d, kstack := true, state := .RUNNABLE, pid := 1,
    cwd := some ROOTINO, mainThread := some 0, currentThread := some 0 }

/-- The machine when the scheduler starts: the first process and empty slots. -/
theorem init_eq (h : Init k) : ∃ d, k.proc = Function.update (fun _ => {}) 0 (initProc d) ∧
    k.call = (fun _ => .user) ∧ k.walk = (fun _ => .idle) ∧ k.dirs = [d] ∧ k.nextpid = 2 ∧
    k.cpuProc = none ∧ k.ptableLocked = false := by
  obtain ⟨d, h⟩ := h
  have hfirst : firstUnused boot = some 0 := by decide
  rw [userinit, hfirst] at h
  obtain ⟨k₁, hk₁, h⟩ := bind_eq_ok.mp h
  obtain ⟨_, rfl⟩ := newDir_ok hk₁
  cases h
  refine ⟨d, ?_, rfl, rfl, rfl, rfl, rfl, rfl⟩
  funext q
  by_cases hq : q = 0
  · subst hq
    rw [setProc_self, Function.update_self]
    rfl
  · rw [setProc_other hq, Function.update_of_ne hq]
    show (initSlot boot 0).proc q = _
    rw [initSlot, setProc_other hq]
    rfl

/-- The invariant holds when the scheduler starts. -/
theorem KernelInv.init (h : Init k) : KernelInv D W k := by
  obtain ⟨d, hproc, hcall, hwalk, hdirs, _, hcpu, _⟩ := init_eq h
  have hself : k.view 0 = ⟨.active, some 0, none, 1, 0, 0, some d, none⟩ := by
    rw [Kernel.view, hproc, Function.update_self]
    rfl
  have hother : ∀ q, q ≠ 0 → (k.view q).life = .unused := by
    intro q hq
    rw [Kernel.view, hproc, Function.update_of_ne hq]
    rfl
  have hmem : ∀ m q, Member k.view m q ↔ m = 0 ∧ q = 0 := by
    intro m q
    by_cases hq : q = 0
    · subst hq; simp [Member, Live, hself, eq_comm]
    · exact iff_of_false (fun hm => not_live_of_unused (hother q hq) hm.1) fun hm => hq hm.2
  refine ⟨⟨fun q => ?_, fun m => ?_, fun _ => ⟨fun _ => 0, fun m e he => ?_⟩, fun c hc => ?_,
    fun c => ?_, fun c c' np hnp => ?_⟩, fun c hc => ?_, fun _ c p hp => ?_⟩
  · by_cases hq : q = 0
    · subst hq
      exact ⟨fun _ => ⟨0, by rw [hself]⟩, fun _ => ⟨d, by rw [hself]⟩⟩
    · exact SlotOk.of_unused (hother q hq)
  · by_cases hm : m = 0
    · subst hm
      exact GroupOk.of_single (by simp [hmem]) (fun _ => by rw [hself]) (by rw [hself])
    · exact GroupOk.of_empty fun q hq => hm ((hmem m q).mp hq).1
  · rcases he with ⟨q, hq, he⟩ | ⟨c, hc, _⟩
    · obtain ⟨rfl, rfl⟩ := (hmem m q).mp hq
      rw [hself, hcall] at he
      rcases he with he | he
      · rw [hdirs, List.mem_singleton]
        exact ⟨(Option.some.inj he).symm, rfl⟩
      · cases he
    · rw [hcall] at hc; cases hc
  · rw [hcall] at hc; exact absurd rfl hc
  · rw [hcall]; trivial
  · rw [hcall] at hnp; cases hnp
  · rw [hcpu] at hc; cases hc
  · rw [hwalk] at hp; cases hp

/-- A step that has been tried. -/
theorem step_of_execTest {e : Step} {p : Kernel → Bool} (h : execTest Thread.step k [e] p = true) :
    ∃ k', Thread.step k e = .ok k' ∧ p k' = true := by
  obtain ⟨k', hrun, hp⟩ := exec_of_execTest Thread.step k [e] p h
  obtain ⟨k₁, hs, hend⟩ := exec_cons_eq_ok.mp hrun
  obtain rfl := Except.ok.inj hend
  exact ⟨k₁, hs, hp⟩

/-- There is no step while `ptable.lock` is held. -/
theorem free_of_step {e : Step} (hs : Thread.step k e = .ok k') : k.ptableLocked = false := by
  cases hl : k.ptableLocked with
  | false => rfl
  | true => rw [Thread.step, if_pos hl] at hs; cases hs

/-- The invariant holds in every state of a run of such steps in which the lock is free. -/
theorem KernelInv.of_reachable {G : Kernel → Step → Prop} (hG : ∀ k e, G k e → KeepsGroups k e)
    (hD : D → ∀ k e, G k e → Careful k e) (hW : W → ∀ k e, G k e → LeavesWalks k e)
    (h : Reachable Init (Steps Thread.step G) k) (hfree : k.ptableLocked = false) :
    KernelInv D W k := by
  have hinv : k.ptableLocked = false → KernelInv D W k := by
    refine h.invariant (I := fun k => k.ptableLocked = false → KernelInv D W k)
      (fun k h0 _ => .init h0) fun k k' ih hstep hfree' => ?_
    obtain ⟨e, he, hs⟩ := hstep
    exact (ih (free_of_step hs)).step (hG k e he) (fun hd => hD hd k e he) (fun hw => hW hw k e he) hs hfree'
  exact hinv hfree

end Xv6.Thread
