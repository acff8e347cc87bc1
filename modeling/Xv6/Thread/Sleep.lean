import Xv6.Thread.Calls

namespace Xv6.Thread

open Xv6.Lib

/-!
# Threads — who falls asleep

A process falls asleep in `wait` and `thread_join`, on its own slot, or with a `sleep` in another
call.  `step_sleeps` shows that no other step puts a process to sleep or changes what it sleeps on.
-/

/-- No process falls asleep from `k` to `k'`. -/
def Awake (k k' : Kernel) : Prop :=
  ∀ q, (k'.proc q).state = .SLEEPING →
    (k.proc q).state = .SLEEPING ∧ (k'.proc q).chan = (k.proc q).chan

variable {k k' k₁ : Kernel} {c m np p q : Slot} {e : Step}

/-! ### Assignments -/

theorem Awake.same (h : k'.proc = k.proc) : Awake k k' := fun q hq => by
  rw [h] at hq ⊢
  exact ⟨hq, rfl⟩

theorem Awake.trans (h : Awake k k₁) (h' : Awake k₁ k') : Awake k k' := fun q hq => by
  obtain ⟨h₁, h₂⟩ := h' q hq
  obtain ⟨h₃, h₄⟩ := h q h₁
  exact ⟨h₃, h₂.trans h₄⟩

/-- An assignment that puts nobody to sleep. -/
theorem Awake.setProc {f : Proc → Proc} (h : Awake k k₁)
    (hf : ∀ x, (f x).state = .SLEEPING → x.state = .SLEEPING ∧ (f x).chan = x.chan) :
    Awake k (k₁.setProc p f) := by
  refine h.trans fun q hq => ?_
  by_cases hqp : q = p
  · subst hqp
    rw [setProc_self] at hq ⊢
    exact hf _ hq
  · rw [setProc_other hqp] at hq ⊢
    exact ⟨hq, rfl⟩

theorem Awake.setCall (h : Awake k k₁) (x : Call) : Awake k (k₁.setCall p x) := h

theorem Awake.setWalk (h : Awake k k₁) (w : Walk) : Awake k (k₁.setWalk p w) := h

theorem Awake.ret (h : Awake k k₁) (r : Int) : Awake k (k₁.ret p r) := by
  refine Awake.setCall ?_ .user
  exact h.setProc fun _ hx => ⟨hx, rfl⟩

theorem Awake.wakeup1 (h : Awake k k₁) (chan : Option Chan) : Awake k (wakeup1 k₁ chan) := by
  refine h.trans fun q hq => ?_
  have hq' : (wakeOne chan (k₁.proc q)).state = .SLEEPING := hq
  show _ ∧ (wakeOne chan (k₁.proc q)).chan = _
  rw [wakeOne] at hq' ⊢
  split at hq'
  · cases hq'
  · rename_i hne
    rw [if_neg hne]
    exact ⟨hq', rfl⟩

theorem Awake.reparent (h : Awake k k₁) : Awake k (reparent k₁ c) := by
  have hfirst : Awake k { k₁ with proc := fun i => if (k₁.proc i).parent = some c then
      { k₁.proc i with parent := k₁.initproc } else k₁.proc i } := by
    refine h.trans fun q hq => ?_
    simp only at hq ⊢
    split at hq
    · rename_i hp
      rw [if_pos hp]
      exact ⟨hq, rfl⟩
    · rename_i hp
      rw [if_neg hp]
      exact ⟨hq, rfl⟩
  rw [Thread.reparent]
  split
  · exact hfirst.wakeup1 _
  · exact hfirst

theorem Awake.zombie (h : Awake k k₁) (r : Nat) : Awake k (zombie k₁ c r) := by
  have hcpu : Awake k { k₁ with cpuProc := none } := h
  refine Awake.setWalk (Awake.setCall ?_ .user) .idle
  exact hcpu.setProc fun _ hx => by cases hx

theorem Awake.freeThread (h : Awake k k₁) : Awake k (freeThread k₁ p) := by
  refine Awake.setWalk (Awake.setCall ?_ .user) .idle
  exact h.setProc fun _ hx => by cases hx

theorem Awake.freeThreads {cond : Kernel → Slot → Bool} {n : Nat} {o : Option Slot}
    (h : Awake k k₁) (hs : freeThreads cond n k₁ o = .ok k') : Awake k k' := by
  induction n generalizing k₁ o with
  | zero =>
    cases o with
    | none => cases hs; exact h
    | some p => cases hs
  | succ n ih =>
    cases o with
    | none => cases hs; exact h
    | some p =>
      rw [Thread.freeThreads] at hs
      refine ih ?_ hs
      split
      · exact h.freeThread
      · exact h

theorem Awake.setSz (h : Awake k k₁) (sz : Nat) (xs : List Slot) : Awake k (setSz k₁ sz xs) := by
  refine h.trans fun q hq => ?_
  rw [setSz_eq] at hq ⊢
  simp only at hq ⊢
  split at hq
  · rename_i hqx
    rw [if_pos hqx]
    exact ⟨hq, rfl⟩
  · rename_i hqx
    rw [if_neg hqx]
    exact ⟨hq, rfl⟩

theorem Awake.closeFile {fd : Nat} (h : Awake k k₁) (hs : closeFile k₁ p fd = .ok k') :
    Awake k k' := by
  rw [Thread.closeFile] at hs
  split at hs
  · cases hs; exact h.setProc fun _ hx => ⟨hx, rfl⟩
  · split at hs
    · cases hs
    · cases hs; exact h.setProc fun _ hx => ⟨hx, rfl⟩

/-! ### The steps -/

theorem Awake.allocproc {next : Slot → Call} {ok : Bool} : Awake k (allocproc k c next ok) := by
  have hinit : ∀ p, Awake k (initSlot k p) := fun p => by
    have hpid : Awake k { k with nextpid := k.nextpid + 1 } := .same rfl
    exact hpid.setProc fun _ hx => by cases hx
  rw [Thread.allocproc]
  split
  · exact (Awake.same rfl).ret _
  · rename_i p _
    split
    · refine Awake.setCall ?_ _
      exact (hinit p).setProc fun _ hx => ⟨hx, rfl⟩
    · refine Awake.ret ?_ _
      exact (hinit p).setProc fun _ hx => by cases hx

theorem Awake.forkCopy {dir : Option Nat} (hs : forkCopy k c np dir = .ok k') : Awake k k' := by
  cases dir with
  | none =>
    cases hs
    refine Awake.ret ?_ _
    exact (Awake.same rfl).setProc fun _ hx => by cases hx
  | some d =>
    obtain ⟨k₁, hk₁, hs⟩ := bind_eq_ok.mp hs
    obtain ⟨_, rfl⟩ := newDir_ok hk₁
    obtain ⟨m, _, hs⟩ := bind_eq_ok.mp hs
    cases hs
    have hdir : Awake k { k with dirs := d :: k.dirs } := .same rfl
    refine Awake.setCall ?_ _
    exact hdir.setProc fun _ hx => ⟨hx, rfl⟩

theorem Awake.linkThread {sz : Nat} (h : Awake k k₁) (hs : linkThread k₁ c np sz = .ok k') :
    Awake k k' := by
  rw [Thread.linkThread] at hs
  split at hs
  · cases hs
  · obtain ⟨m, _, hs⟩ := bind_eq_ok.mp hs
    split at hs
    · cases hs
    · cases hs
      refine Awake.setSz ?_ _ _
      refine Awake.setProc ?_ fun _ hx => by cases hx
      refine Awake.setProc ?_ fun _ hx => ⟨hx, rfl⟩
      exact h.setProc fun _ hx => ⟨hx, rfl⟩

theorem Awake.createFinish {ok : Bool} (hs : createFinish k c m np ok = .ok k') : Awake k k' := by
  have hattach : Awake k (attach k c m np) := by
    rw [attach]
    refine Awake.setProc ?_ fun _ hx => ⟨hx, rfl⟩
    exact (Awake.same rfl).setProc fun _ hx => ⟨hx, rfl⟩
  rw [Thread.createFinish] at hs
  split at hs
  · cases hs; exact hattach.ret _
  · generalize stackSize k m ok = newsz at hs
    have hnp : Awake k ((attach k c m np).setProc np fun q => { q with sz := newsz }) :=
      hattach.setProc fun _ hx => ⟨hx, rfl⟩
    have hsize : Awake k (((attach k c m np).setProc np fun q => { q with sz := newsz }).setProc m
        fun q => { q with sz := newsz }) := hnp.setProc fun _ hx => ⟨hx, rfl⟩
    split at hs
    · cases hs
      refine Awake.ret ?_ (-1)
      exact hsize.setProc fun _ hx => by cases hx
    · exact (hsize.ret 0).linkThread hs

theorem Awake.exitBegin (hs : exitBegin k c = .ok k') : Awake k k' := by
  rw [Thread.exitBegin] at hs
  split at hs
  · cases hs
  · obtain ⟨m, _, hs⟩ := bind_eq_ok.mp hs
    cases hs
    exact .same rfl

theorem Awake.closeFiles (hs : closeFiles k c = .ok k') : Awake k k' := by
  rw [Thread.closeFiles] at hs
  split at hs
  · cases hs
  · cases hs
  · cases hs; exact .same rfl
  · obtain ⟨k₁, hk₁, hs⟩ := bind_eq_ok.mp hs
    cases hs
    exact (Awake.closeFile (.same rfl) hk₁ :)
  · split at hs <;> (cases hs; exact .same rfl)
  · obtain ⟨k₁, hk₁, hs⟩ := bind_eq_ok.mp hs
    cases hs
    exact (Awake.closeFile (.same rfl) hk₁ :)

theorem Awake.moveCurrent {prev : Slot} (h : Awake k k₁) (hs : moveCurrent k₁ p prev = .ok k') :
    Awake k k' := by
  obtain ⟨m, _, hs⟩ := bind_eq_ok.mp hs
  split at hs
  · cases hs; exact h.setProc fun _ hx => ⟨hx, rfl⟩
  · cases hs; exact h

theorem Awake.unlinkLoop {n : Nat} {prev prev' : Slot} (h : Awake k k₁)
    (hs : unlinkLoop p n k₁ prev = .ok (k', prev')) : Awake k k' := by
  induction n generalizing k₁ prev with
  | zero => cases hs
  | succ n ih =>
    rw [Thread.unlinkLoop] at hs
    split at hs
    · cases hs; exact h
    · obtain ⟨q, _, hs⟩ := bind_eq_ok.mp hs
      refine ih ?_ hs
      exact h.setProc fun _ hx => ⟨hx, rfl⟩

theorem Awake.unlinkThread (h : Awake k k₁) (hs : unlinkThread k₁ m p = .ok k') : Awake k k' := by
  rw [Thread.unlinkThread] at hs
  split at hs
  · refine Awake.moveCurrent ?_ hs
    exact h.setProc fun _ hx => ⟨hx, rfl⟩
  · obtain ⟨q, _, hs⟩ := bind_eq_ok.mp hs
    obtain ⟨⟨k₂, prev⟩, hk₂, hs⟩ := bind_eq_ok.mp hs
    exact (h.unlinkLoop hk₂).moveCurrent hs

theorem Awake.execFinish {old : Option Nat} (hs : execFinish k c old = .ok k') : Awake k k' := by
  obtain ⟨k₂, hk₂, hs⟩ := bind_eq_ok.mp hs
  obtain ⟨k₁, hk₁, hk₂⟩ := bind_eq_ok.mp hk₂
  cases hk₂
  obtain ⟨d, _, rfl⟩ := freevm_ok hs
  have hfree := Awake.freeThreads (.same rfl) hk₁
  refine Awake.setWalk (p := c) (Awake.ret ?_ 0) .idle
  exact hfree.setProc fun _ hx => ⟨hx, rfl⟩

theorem Awake.execCommit {d sz : Nat} (hs : execCommit k c d sz = .ok k') : Awake k k' := by
  rw [Thread.execCommit] at hs
  split at hs
  · cases hs
  · obtain ⟨k₁, hk₁, hs⟩ := bind_eq_ok.mp hs
    obtain ⟨_, rfl⟩ := newDir_ok hk₁
    obtain ⟨m, _, hs⟩ := bind_eq_ok.mp hs
    have hdir : Awake k { k with dirs := d :: k.dirs } := .same rfl
    split at hs
    · cases hs
      refine Awake.ret ?_ _
      exact hdir.setProc fun _ hx => ⟨hx, rfl⟩
    · cases hs
      refine Awake.setWalk (Awake.setCall ?_ _) _
      exact hdir.setProc fun _ hx => ⟨hx, rfl⟩

theorem Awake.schedule (hs : schedule k = .ok k') : Awake k k' := by
  rw [Thread.schedule] at hs
  split at hs
  · cases hs
  · split at hs
    · cases hs; exact .same rfl
    · rename_i p _
      obtain ⟨m, _, hs⟩ := bind_eq_ok.mp hs
      obtain ⟨cur, _, hs⟩ := bind_eq_ok.mp hs
      split at hs
      · cases hs
      · rename_i t _
        cases hs
        have hcpu : Awake k { k with cpuProc := some t, scan := p.val + 1 } := .same rfl
        refine Awake.setProc ?_ fun _ hx => by cases hx
        exact hcpu.setProc fun _ hx => ⟨hx, rfl⟩

theorem Awake.kill {pid : Int} : Awake k (kill k c pid) := by
  rw [Thread.kill]
  split
  · exact (Awake.same rfl).ret _
  · refine Awake.ret ?_ _
    refine (Awake.same rfl).setProc fun x hx => ?_
    -- a process that slept is made runnable
    simp only at hx
    split at hx
    · cases hx
    · exact ⟨hx, rfl⟩

theorem Awake.fdalloc {f : Nat} : Awake k (fdalloc k c f) := by
  rw [Thread.fdalloc]
  split
  · exact (Awake.same rfl).ret _
  · refine Awake.ret ?_ _
    exact (Awake.same rfl).setProc fun _ hx => ⟨hx, rfl⟩

theorem Awake.close {fd : Fin NOFILE} : Awake k (close k c fd) := by
  rw [Thread.close]
  split
  · exact (Awake.same rfl).ret _
  · refine Awake.ret ?_ _
    exact (Awake.same rfl).setProc fun _ hx => ⟨hx, rfl⟩

/-- A process that falls asleep with the step to `k'` inside `thread_join` sleeps on its own slot,
    and waits for a thread that has not exited. -/
def JoinsLive (k' : Kernel) (q : Slot) : Prop :=
  ∀ m p, k'.call q = .join m p → (k'.proc q).chan = some (.proc q) ∧ (k'.proc p).state ≠ .ZOMBIE

/-- What a process that sleeps after a step has done before. -/
def Slept (k : Kernel) (e : Step) (k' : Kernel) (q : Slot) : Prop :=
  ((k.proc q).state = .SLEEPING ∧ (k'.proc q).chan = (k.proc q).chan ∧
    (e.joins = true → k.cpuProc ≠ some q)) ∨ JoinsLive k' q

theorem Slept.awake (h : Awake k k') (he : e.joins = false)
    (hq : (k'.proc q).state = .SLEEPING) : Slept k e k' q := by
  obtain ⟨h₁, h₂⟩ := h q hq
  exact .inl ⟨h₁, h₂, fun hj => by rw [he] at hj; cases hj⟩

/-- The running process returns from `thread_join`. -/
theorem Slept.returns (h : Awake k k') (hc : k.cpuProc = some c) (hcall : k'.call c = .user)
    (hq : (k'.proc q).state = .SLEEPING) : Slept k e k' q := by
  obtain ⟨h₁, h₂⟩ := h q hq
  by_cases hqc : q = c
  · subst hqc
    exact .inr fun m p hjoin => by rw [hcall] at hjoin; cases hjoin
  · exact .inl ⟨h₁, h₂, fun _ hc' => hqc (Option.some.inj (hc'.symm.trans hc))⟩

/-- The running process falls asleep. -/
theorem Slept.sleep {chan : Chan} (hjoin : JoinsLive (Thread.sleep k₁ c chan) c) (h : Awake k k₁)
    (hc : k.cpuProc = some c) (hq : ((Thread.sleep k₁ c chan).proc q).state = .SLEEPING) :
    Slept k e (Thread.sleep k₁ c chan) q := by
  by_cases hqc : q = c
  · subst hqc
    exact .inr hjoin
  · have heq : (Thread.sleep k₁ c chan).proc q = k₁.proc q := setProc_other hqc
    rw [Slept, heq]
    rw [heq] at hq
    obtain ⟨h₁, h₂⟩ := h q hq
    exact .inl ⟨h₁, h₂, fun _ hc' => hqc (Option.some.inj (hc'.symm.trans hc))⟩

theorem Slept.joinCheck (hc : k.cpuProc = some c) (hs : Thread.joinCheck k c m p = .ok k')
    (hq : (k'.proc q).state = .SLEEPING) : Slept k e k' q := by
  rw [Thread.joinCheck] at hs
  split at hs
  · rename_i hz
    cases hs
    refine Slept.sleep (fun m' p' hcall => ?_) (.same rfl) hc hq
    have hself : (Thread.sleep (k.setCall c (.join m p)) c (.proc c)).call c = .join m p :=
      Function.update_self ..
    cases hself.symm.trans hcall
    refine ⟨?_, fun hz' => ?_⟩
    · rw [Thread.sleep, setProc_self]
    · by_cases hpc : p = c
      · subst hpc
        rw [Thread.sleep, setProc_self] at hz'
        cases hz'
      · rw [Thread.sleep, setProc_other hpc] at hz'
        exact hz hz'
  · obtain ⟨k₁, hk₁, hs⟩ := bind_eq_ok.mp hs
    cases hs
    have hval : Awake k (k.setProc c fun q => { q with joinVal := (k.proc p).retval }) :=
      (Awake.same rfl).setProc fun _ hx => ⟨hx, rfl⟩
    exact .returns ((hval.unlinkThread hk₁).freeThread.ret 0) hc (Function.update_self ..) hq

theorem Slept.wait (hc : k.cpuProc = some c) (hs : Thread.wait k c = .ok k')
    (hq : (k'.proc q).state = .SLEEPING) : Slept k .wait k' q := by
  rw [Thread.wait] at hs
  split at hs
  · obtain ⟨m, _, hs⟩ := bind_eq_ok.mp hs
    obtain ⟨k₁, hk₁, hs⟩ := bind_eq_ok.mp hs
    obtain ⟨d, _, rfl⟩ := freevm_ok hk₁
    cases hs
    have hdir : Awake k { k with dirs := k.dirs.filter fun e' => e' ≠ d } := .same rfl
    refine .awake (Awake.ret ?_ _) rfl hq
    exact hdir.setProc fun _ hx => by cases hx
  · split at hs
    · cases hs; exact .awake ((Awake.same rfl).ret _) rfl hq
    · cases hs
      refine Slept.sleep (fun m' p' hcall => ?_) (.same rfl) hc hq
      have hself : (Thread.sleep (k.setCall c .wait) c (.proc c)).call c = .wait :=
        Function.update_self ..
      cases hself.symm.trans hcall

/-- Nobody else falls asleep, or sleeps on something else than before. -/
theorem step_sleeps (hs : step k e = .ok k') (hq : (k'.proc q).state = .SLEEPING) :
    Slept k e k' q := by
  rw [step] at hs
  split at hs
  · cases hs
  cases e with
  | wait =>
    obtain ⟨c, hc, hs⟩ := byProc_ok hs
    split at hs
    · exact .wait hc hs hq
    · cases hs
  | threadJoin tid =>
    obtain ⟨c, hc, _, hs⟩ := byUser_ok hs
    obtain ⟨m, _, hs⟩ := bind_eq_ok.mp hs
    split at hs
    · cases hs
    · cases hs; exact .returns ((Awake.same rfl).ret _) hc (Function.update_self ..) hq
    · exact .joinCheck hc hs hq
  | joinCheck =>
    obtain ⟨c, hc, hs⟩ := byProc_ok hs
    split at hs
    · exact .joinCheck hc hs hq
    · cases hs
  | sleep chan =>
    obtain ⟨c, hc, hs⟩ := byProc_ok hs
    split at hs
    · cases hs
    · rename_i hwaits
      cases hs
      refine Slept.sleep (fun m' p' hcall => ?_) (.same rfl) hc hq
      have hcall' : k.call c = .join m' p' := hcall
      rw [hcall'] at hwaits
      exact absurd rfl hwaits
  | forkAlloc ok =>
    obtain ⟨c, _, _, hs⟩ := byUser_ok hs
    cases hs
    exact .awake Awake.allocproc rfl hq
  | forkCopy dir =>
    obtain ⟨c, _, hs⟩ := byProc_ok hs
    split at hs
    · exact .awake (Awake.forkCopy hs) rfl hq
    · cases hs
  | forkRun =>
    obtain ⟨c, _, hs⟩ := byProc_ok hs
    split at hs
    · cases hs
      refine .awake (Awake.ret ?_ _) rfl hq
      exact (Awake.same rfl).setProc fun _ hx => by cases hx
    · cases hs
  | createAlloc ok =>
    obtain ⟨c, _, _, hs⟩ := byUser_ok hs
    obtain ⟨m, _, hs⟩ := bind_eq_ok.mp hs
    cases hs
    exact .awake Awake.allocproc rfl hq
  | createFinish ok =>
    obtain ⟨c, _, hs⟩ := byProc_ok hs
    split at hs
    · exact .awake (Awake.createFinish hs) rfl hq
    · cases hs
  | exitBegin =>
    obtain ⟨c, _, _, hs⟩ := byUser_ok hs
    exact .awake (Awake.exitBegin hs) rfl hq
  | threadExitBegin r =>
    obtain ⟨c, _, _, hs⟩ := byUser_ok hs
    rw [threadExitBegin] at hs
    split at hs
    · exact .awake (Awake.exitBegin hs) rfl hq
    · cases hs; exact .awake (.same rfl) rfl hq
  | closeFiles =>
    obtain ⟨c, _, hs⟩ := byProc_ok hs
    exact .awake (Awake.closeFiles hs) rfl hq
  | exit =>
    obtain ⟨c, _, hs⟩ := byProc_ok hs
    split at hs
    · obtain ⟨k₁, hk₁, hs⟩ := bind_eq_ok.mp hs
      cases hs
      exact .awake ((((Awake.same rfl).freeThreads hk₁).wakeup1 _).reparent.zombie _) rfl hq
    · cases hs
  | threadExit =>
    obtain ⟨c, _, hs⟩ := byProc_ok hs
    split at hs
    · split at hs
      · cases hs
        exact .awake (((Awake.same rfl).wakeup1 _).reparent.zombie _) rfl hq
      · cases hs
    · cases hs
  | execCommit d sz =>
    obtain ⟨c, _, _, hs⟩ := byUser_ok hs
    exact .awake (Awake.execCommit hs) rfl hq
  | execFinish =>
    obtain ⟨c, _, hs⟩ := byProc_ok hs
    split at hs
    · split at hs
      · exact .awake (Awake.execFinish hs) rfl hq
      · cases hs
    · cases hs
  | sbrk n =>
    obtain ⟨c, _, _, hs⟩ := byUser_ok hs
    rw [sbrk] at hs
    split at hs
    · cases hs; exact .awake (.same rfl) rfl hq
    · cases hs
  | growproc ok =>
    obtain ⟨c, _, hs⟩ := byProc_ok hs
    split at hs
    · obtain ⟨r, hr, hs⟩ := bind_eq_ok.mp hs
      rcases growproc_ok hr with rfl | ⟨m, sz, xs, _, _, _, rfl⟩
      · cases hs; exact .awake ((Awake.same rfl).ret _) rfl hq
      · cases hs; exact .awake (((Awake.same rfl).setSz sz xs).ret _) rfl hq
    · cases hs
  | setmemorylimit pid limit =>
    obtain ⟨c, _, _, hs⟩ := byUser_ok hs
    obtain ⟨r, hr, hs⟩ := bind_eq_ok.mp hs
    rcases setmemorylimit_ok hr with rfl | ⟨p, m, _, _, _, _, _, _, rfl⟩
    · cases hs; exact .awake ((Awake.same rfl).ret _) rfl hq
    · cases hs
      refine .awake (Awake.ret ?_ _) rfl hq
      exact (Awake.same rfl).setProc fun _ hx => ⟨hx, rfl⟩
  | kill pid =>
    obtain ⟨c, _, _, hs⟩ := byUser_ok hs
    cases hs
    exact .awake Awake.kill rfl hq
  | fdalloc f =>
    obtain ⟨c, _, _, hs⟩ := byUser_ok hs
    cases hs
    exact .awake Awake.fdalloc rfl hq
  | close fd =>
    obtain ⟨c, _, _, hs⟩ := byUser_ok hs
    cases hs
    exact .awake Awake.close rfl hq
  | chdir ip =>
    obtain ⟨c, _, _, hs⟩ := byUser_ok hs
    cases hs
    refine .awake (Awake.ret ?_ _) rfl hq
    exact (Awake.same rfl).setProc fun _ hx => ⟨hx, rfl⟩
  | yield =>
    obtain ⟨c, _, hs⟩ := byProc_ok hs
    cases hs
    have hcpu : Awake k { k with cpuProc := none } := .same rfl
    refine .awake (Awake.setProc hcpu fun _ hx => ?_) rfl hq
    cases hx
  | wakeup chan =>
    cases hs
    exact .awake ((Awake.same rfl).wakeup1 _) rfl hq
  | schedule => exact .awake (Awake.schedule hs) rfl hq

end Xv6.Thread
