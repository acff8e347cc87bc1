import Xv6.Thread.Slots

namespace Xv6.Thread

open Xv6.Lib

/-!
# Threads — the operations of the log (`pj2/xv6-public/log.c`)

The file system calls of the processes run between `begin_op` and `end_op`, which keep the number
`log.outstanding`; `exit`, `exec` and `thread_exit` use them when they give up a directory.  A
process may sleep or yield inside an operation, and inside the commit that the last `end_op` makes.

* `logStep` — the steps of the machine together with `begin_op`, `log_write` and `end_op`;
* `OpsInv` — what holds in every state as long as no thread is released inside an operation;
* `outstanding_counts` — then `outstanding` is the number of processes inside an operation.
-/

/-- `MAXOPBLOCKS`, the blocks that one operation may write. -/
def MAXOPBLOCKS : Nat := 10

/-- `LOGSIZE`, the blocks of the log. -/
def LOGSIZE : Nat := 3 * MAXOPBLOCKS

/-- The address `&log`. -/
def logChan : Chan := .other 0

/-- Where a process is: outside of the log, in the loop of `begin_op`, between `begin_op` and
    `end_op`, or in the commit at the end of `end_op`. -/
inductive Phase
  | outside | begins | inside | commits
  deriving DecidableEq, Repr

/-- The machine, the phase of the process in every slot, and the fields of `log`. -/
structure LogRun where
  kernel : Kernel
  phase : Slot → Phase
  outstanding : Nat
  committing : Bool
  lhn : Nat

namespace LogRun

/-- The machine goes on to `k'`.  A process whose slot is released is gone. -/
def follow (s : LogRun) (k' : Kernel) : LogRun :=
  { s with
    kernel := k'
    phase := fun p => if (k'.proc p).state = .UNUSED then .outside else s.phase p }

/-- A process goes on to another phase. -/
def setPhase (s : LogRun) (c : Slot) (x : Phase) : LogRun :=
  { s with phase := Function.update s.phase c x }

end LogRun

/-- The steps of the machine with the calls of the log by the running process. -/
inductive LogStep
  | kernel (e : Step)
  | beginOp
  | logWrite (new : Bool)
  | endOp
  | committed
  deriving DecidableEq, Repr

/-- The places of the calls in which `begin_op` is called. -/
def Call.usesLog : Call → Bool
  | .user | .exec _ | .exit | .threadExit _ => true
  | _ => false

/-- The steps of the machine that a process can make in a phase.  Inside an operation it sleeps
    and yields, in the loop of `begin_op` it sleeps only there. -/
def Phase.allows : Phase → Step → Bool
  | .outside, _ => true
  | _, .yield | _, .wakeup _ | _, .schedule => true
  | .inside, .sleep _ | .commits, .sleep _ => true
  | _, _ => false

/-- A step of the running process. -/
def byRunning (s : LogRun) (f : Slot → Except Stop LogRun) : Except Stop LogRun :=
  match s.kernel.cpuProc with
  | none => .error .blocked
  | some c => f c

/-- `begin_op()` of `c`, up to the increment or the sleep. -/
def beginOp (s : LogRun) (c : Slot) : Except Stop LogRun :=
  if s.committing ∨ LOGSIZE < s.lhn + (s.outstanding + 1) * MAXOPBLOCKS then do
    let k' ← step s.kernel (.sleep logChan)
    .ok ((s.follow k').setPhase c .begins)
  else .ok { s.setPhase c .inside with outstanding := s.outstanding + 1 }

/-- `log_write` of a block that is in the log, or is not. -/
def logWrite (s : LogRun) (new : Bool) : Except Stop LogRun :=
  if LOGSIZE ≤ s.lhn + 1 then .error (.panic "too big a transaction")
  else if s.outstanding < 1 then .error (.panic "log_write outside of trans")
  else .ok { s with lhn := if new then s.lhn + 1 else s.lhn }

/-- `end_op()` of `c` up to the commit. -/
def endOp (s : LogRun) (c : Slot) : Except Stop LogRun :=
  if s.committing then .error (.panic "log.committing")
  else if s.outstanding - 1 = 0 then
    .ok { s.setPhase c .commits with outstanding := 0, committing := true }
  else do
    let k' ← step s.kernel (.wakeup logChan)
    .ok { (s.follow k').setPhase c .outside with outstanding := s.outstanding - 1 }

/-- The end of the commit of `c`. -/
def committed (s : LogRun) (c : Slot) : Except Stop LogRun := do
  let k' ← step s.kernel (.wakeup logChan)
  .ok { (s.follow k').setPhase c .outside with committing := false, lhn := 0 }

/-- Does the phase of the running process allow the step? -/
def allowed (s : LogRun) (e : Step) : Bool :=
  match s.kernel.cpuProc with
  | none => true
  | some c => (s.phase c).allows e

/-- One step. -/
def logStep (s : LogRun) : LogStep → Except Stop LogRun
  | .kernel e =>
    if allowed s e then do
      let k' ← step s.kernel e
      .ok (s.follow k')
    else .error .blocked
  | .beginOp => byRunning s fun c =>
      if s.phase c = .begins ∨ (s.phase c = .outside ∧ (s.kernel.call c).usesLog) then beginOp s c
      else .error .blocked
  | .logWrite new => byRunning s fun c =>
      if s.phase c = .inside then logWrite s new else .error .blocked
  | .endOp => byRunning s fun c =>
      if s.phase c = .inside then endOp s c else .error .blocked
  | .committed => byRunning s fun c =>
      if s.phase c = .commits then committed s c else .error .blocked

/-- The start of a run: the log is empty. -/
def LogInit (s : LogRun) : Prop :=
  Init s.kernel ∧ (∀ p, s.phase p = .outside) ∧ s.outstanding = 0 ∧ s.committing = false ∧ s.lhn = 0

/-- The number of slots in use whose process is between `begin_op` and `end_op`. -/
def insideCount (s : LogRun) : Nat :=
  (Finset.univ.filter fun p => s.phase p = .inside ∧ (s.kernel.proc p).state ≠ .UNUSED).card

/-- `exit` and `exec` go over the list of the threads while none of the others is inside an
    operation or a commit.  (The list holds no slot of a thread that was not started yet.) -/
def OpsDone (s : LogRun) (e : LogStep) : Prop :=
  (e = .kernel .exit ∨ e = .kernel .execFinish) → ∀ c ∈ s.kernel.cpuProc,
    ∀ n : Fin (2 * NPROC), ∀ p ∈ threadAt s.kernel c n, p ≠ c →
      s.phase p ≠ .inside ∧ s.phase p ≠ .commits ∧ (s.kernel.proc p).state ≠ .EMBRYO

instance (s : LogRun) (e : LogStep) : Decidable (OpsDone s e) :=
  inferInstanceAs (Decidable (_ → ∀ c ∈ s.kernel.cpuProc, ∀ n : Fin (2 * NPROC),
    ∀ p ∈ threadAt s.kernel c n, _))

variable {k k' k₁ : Kernel} {s s' : LogRun} {c np p q : Slot} {e : Step}

/-! ### The processes inside an operation -/

/-- The slots whose process is between `begin_op` and `end_op`. -/
def insideSet (phase : Slot → Phase) : Finset Slot :=
  Finset.univ.filter fun p => phase p = .inside

theorem mem_insideSet {phase : Slot → Phase} : p ∈ insideSet phase ↔ phase p = .inside := by
  simp [insideSet]

/-- `begin_op` adds the process. -/
theorem insideSet_enter {phase : Slot → Phase} (hc : phase c ≠ .inside) :
    (insideSet (Function.update phase c .inside)).card = (insideSet phase).card + 1 := by
  have heq : insideSet (Function.update phase c .inside) = insert c (insideSet phase) := by
    ext q
    rw [mem_insideSet, Finset.mem_insert, mem_insideSet]
    by_cases hq : q = c
    · subst hq; simp
    · simp [hq]
  rw [heq, Finset.card_insert_of_notMem fun hmem => hc (mem_insideSet.mp hmem)]

/-- `end_op` takes it away. -/
theorem insideSet_leave {phase : Slot → Phase} {x : Phase} (hc : phase c = .inside)
    (hx : x ≠ .inside) :
    (insideSet (Function.update phase c x)).card = (insideSet phase).card - 1 := by
  have heq : insideSet (Function.update phase c x) = (insideSet phase).erase c := by
    ext q
    rw [mem_insideSet, Finset.mem_erase, mem_insideSet]
    by_cases hq : q = c
    · subst hq; simp [hx]
    · simp [hq]
  rw [heq, Finset.card_erase_of_mem (mem_insideSet.mpr hc)]

theorem insideSet_other {phase : Slot → Phase} {x : Phase} (hc : phase c ≠ .inside)
    (hx : x ≠ .inside) : insideSet (Function.update phase c x) = insideSet phase := by
  ext q
  rw [mem_insideSet, mem_insideSet]
  by_cases hq : q = c
  · subst hq; simp [hx, hc]
  · simp [hq]

/-! ### The invariant -/

/-- What holds in every state of a run that releases no thread inside an operation. -/
structure OpsInv (s : LogRun) : Prop where
  slots : SlotsOk s.kernel
  used : ∀ p, s.phase p ≠ .outside → (s.kernel.proc p).state.active
  count : s.outstanding = (insideSet s.phase).card
  commits : s.committing = true → ∃ p, s.phase p = .commits
  committing : ∀ p, s.phase p = .commits → s.committing = true
  single : ∀ p q, s.phase p = .commits → s.phase q = .commits → p = q

theorem OpsDone.started (h : OpsDone s (.kernel e)) : ListStarted s.kernel e :=
  fun he c hc n p hp hne => (h (he.imp (congrArg _) (congrArg _)) c hc n p hp hne).2.2

/-- A process ends only outside of operations. -/
def EndsOutside (s : LogRun) (e : Step) : Prop :=
  e.ends = true → ∀ c, s.kernel.cpuProc = some c → s.phase c = .outside

theorem allowed_ends (ha : allowed s e = true) : EndsOutside s e := fun he c hc => by
  have hallows : (s.phase c).allows e = true := by
    rw [allowed, hc] at ha
    exact ha
  cases hx : s.phase c with
  | outside => rfl
  | _ =>
    rw [hx] at hallows
    cases e with
    | exit => cases hallows
    | threadExit => cases hallows
    | _ => cases he

theorem EndsOutside.of_not_ends (he : e.ends = false) : EndsOutside s e := fun he' => by
  rw [he] at he'
  cases he'

/-- No process inside an operation or a commit is released. -/
theorem OpsInv.kept (h : OpsInv s) (he : OpsDone s (.kernel e)) (ha : EndsOutside s e)
    (hs : step s.kernel e = .ok k') (hp : s.phase p = .inside ∨ s.phase p = .commits) :
    (k'.proc p).state ≠ .UNUSED := by
  have hout : s.phase p ≠ .outside := by rcases hp with hp | hp <;> simp [hp]
  intro hu
  rcases h.slots.active_step hs (h.used p hout) with hact | ⟨hends, hc⟩ | ⟨_, hee, _⟩
  · rw [hu] at hact
    simp [ProcState.active] at hact
  · exact hout (ha hends p hc)
  · have hused : (s.kernel.proc p).state ≠ .UNUSED := fun hu' => by
      have hact := h.used p hout
      rw [hu'] at hact
      simp [ProcState.active] at hact
    obtain ⟨c, hc, hne, j, hj⟩ := released_onList hs hee hused hu
    have hdone := he (hee.imp (congrArg _) (congrArg _)) c hc j p hj hne
    exact hp.elim hdone.1 hdone.2.1

/-- A step of the machine. -/
theorem OpsInv.follow (h : OpsInv s) (he : OpsDone s (.kernel e)) (ha : EndsOutside s e)
    (hs : step s.kernel e = .ok k') : OpsInv (s.follow k') := by
  have hphase : ∀ p x, x = .inside ∨ x = .commits →
      ((s.follow k').phase p = x ↔ s.phase p = x) := fun p x hx => by
    show (if (k'.proc p).state = .UNUSED then Phase.outside else s.phase p) = x ↔ _
    split
    · rename_i hu
      refine ⟨fun hout => ?_, fun hp => absurd hu (h.kept he ha hs (hx.imp ?_ ?_))⟩
      · rcases hx with rfl | rfl <;> cases hout
      · rintro rfl; exact hp
      · rintro rfl; exact hp
    · exact Iff.rfl
  exact {
    slots := h.slots.step he.started hs
    used := fun p hp => by
      have hp' : (if (k'.proc p).state = .UNUSED then Phase.outside else s.phase p) ≠ .outside := hp
      split at hp'
      · exact absurd rfl hp'
      · rename_i hu
        rcases h.slots.active_step hs (h.used p hp') with hact | ⟨hends, hc⟩ | ⟨hu', _⟩
        · exact hact
        · exact absurd (ha hends p hc) hp'
        · exact absurd hu' hu
    count := by
      have hset : insideSet (s.follow k').phase = insideSet s.phase := by
        ext p
        rw [mem_insideSet, mem_insideSet]
        exact hphase p .inside (.inl rfl)
      rw [hset]
      exact h.count
    commits := fun hc => (h.commits hc).imp fun p hp => (hphase p .commits (.inr rfl)).mpr hp
    committing := fun p hp => h.committing p ((hphase p .commits (.inr rfl)).mp hp)
    single := fun p q hp hq => h.single p q ((hphase p .commits (.inr rfl)).mp hp)
      ((hphase q .commits (.inr rfl)).mp hq) }

/-- A part of a call of the log in which the process `c` sleeps or wakes others. -/
theorem OpsInv.part (h : OpsInv s) (he : e = .sleep logChan ∨ e = .wakeup logChan)
    (hc : s.kernel.cpuProc = some c) (hs : step s.kernel e = .ok k') :
    OpsInv (s.follow k') ∧ (k'.proc c).state.active ∧ (s.follow k').phase c = s.phase c := by
  have hends : e.ends = false := by rcases he with rfl | rfl <;> rfl
  have hnot : e ≠ .exit ∧ e ≠ .execFinish := by rcases he with rfl | rfl <;> simp
  have hact : (k'.proc c).state.active := by
    rcases h.slots.active_step hs (h.slots.cpu c hc) with hact | ⟨hends', _⟩ | ⟨_, hee, _⟩
    · exact hact
    · rw [hends] at hends'; cases hends'
    · exact absurd hee (by simp [hnot])
  refine ⟨h.follow (fun hee => ?_) (.of_not_ends hends) hs, hact, ?_⟩
  · rcases hee with hee | hee
    · cases hee; exact absurd rfl hnot.1
    · cases hee; exact absurd rfl hnot.2
  · show (if (k'.proc c).state = .UNUSED then Phase.outside else s.phase c) = _
    rw [if_neg fun hu => by rw [hu] at hact; simp [ProcState.active] at hact]

/-- The process `c` goes on to a phase that is no operation and no commit. -/
theorem OpsInv.setPhase {x : Phase} (h : OpsInv s) (hact : (s.kernel.proc c).state.active)
    (hp : s.phase c ≠ .inside ∧ s.phase c ≠ .commits) (hx : x ≠ .inside ∧ x ≠ .commits) :
    OpsInv (s.setPhase c x) := by
  have hcommits : ∀ p, (s.setPhase c x).phase p = .commits ↔ s.phase p = .commits := fun p => by
    show Function.update s.phase c x p = _ ↔ _
    by_cases hpc : p = c
    · subst hpc; simp [hp.2, hx.2]
    · simp [hpc]
  exact {
    slots := h.slots
    used := fun p hout => by
      by_cases hpc : p = c
      · exact hpc ▸ hact
      · refine h.used p fun hp' => hout ?_
        show Function.update s.phase c x p = _
        rw [Function.update_of_ne hpc, hp']
    count := by
      show s.outstanding = (insideSet (Function.update s.phase c x)).card
      rw [insideSet_other hp.1 hx.1]
      exact h.count
    commits := fun hc => (h.commits hc).imp fun p => (hcommits p).mpr
    committing := fun p hp' => h.committing p ((hcommits p).mp hp')
    single := fun p q hp' hq => h.single p q ((hcommits p).mp hp') ((hcommits q).mp hq) }

/-- `begin_op` counts the process or lets it sleep. -/
theorem OpsInv.beginOp (h : OpsInv s) (hc : s.kernel.cpuProc = some c)
    (hp : s.phase c = .begins ∨ s.phase c = .outside) (hs : beginOp s c = .ok s') :
    OpsInv s' := by
  have hnot : s.phase c ≠ .inside ∧ s.phase c ≠ .commits := by
    rcases hp with hp | hp <;> simp [hp]
  rw [Thread.beginOp] at hs
  split at hs
  · obtain ⟨k', hk', hs⟩ := bind_eq_ok.mp hs
    cases hs
    obtain ⟨hinv, hact, hsame⟩ := h.part (.inl rfl) hc hk'
    exact hinv.setPhase hact (by rw [hsame]; exact hnot) (by simp)
  · cases hs
    have hcommits : ∀ p, Function.update s.phase c .inside p = .commits ↔ s.phase p = .commits :=
      fun p => by
        by_cases hpc : p = c
        · subst hpc; simp [hnot.2]
        · simp [hpc]
    exact {
      slots := h.slots
      used := fun p hout => by
        by_cases hpc : p = c
        · exact hpc ▸ h.slots.cpu c hc
        · refine h.used p fun hp' => hout ?_
          show Function.update s.phase c .inside p = _
          rw [Function.update_of_ne hpc, hp']
      count := by
        show s.outstanding + 1 = (insideSet (Function.update s.phase c .inside)).card
        rw [insideSet_enter hnot.1, h.count]
      commits := fun hcm => (h.commits hcm).imp fun p => (hcommits p).mpr
      committing := fun p hp' => h.committing p ((hcommits p).mp hp')
      single := fun p q hp' hq => h.single p q ((hcommits p).mp hp') ((hcommits q).mp hq) }

/-- `end_op` takes the process out of the count; the last one commits. -/
theorem OpsInv.endOp (h : OpsInv s) (hc : s.kernel.cpuProc = some c) (hp : s.phase c = .inside)
    (hs : endOp s c = .ok s') : OpsInv s' := by
  have hact := h.slots.cpu c hc
  rw [Thread.endOp] at hs
  split at hs
  · cases hs
  rename_i hcm
  -- nobody commits
  have hnone : ∀ p, s.phase p ≠ .commits := fun p hp' => hcm (h.committing p hp')
  split at hs
  · rename_i hlast
    cases hs
    have hself : ∀ p, Function.update s.phase c .commits p = .commits → p = c := fun p hp' => by
      by_contra hpc
      rw [Function.update_of_ne hpc] at hp'
      exact hnone p hp'
    exact {
      slots := h.slots
      used := fun p hout => by
        by_cases hpc : p = c
        · exact hpc ▸ hact
        · refine h.used p fun hp' => hout ?_
          show Function.update s.phase c .commits p = _
          rw [Function.update_of_ne hpc, hp']
      count := by
        show 0 = (insideSet (Function.update s.phase c .commits)).card
        rw [insideSet_leave hp (by simp), ← h.count, hlast]
      commits := fun _ => ⟨c, Function.update_self ..⟩
      committing := fun _ _ => rfl
      single := fun p q hp' hq => (hself p hp').trans (hself q hq).symm }
  · obtain ⟨k', hk', hs⟩ := bind_eq_ok.mp hs
    cases hs
    obtain ⟨hinv, hact', hsame⟩ := h.part (.inr rfl) hc hk'
    have hcommits : ∀ p, Function.update (s.follow k').phase c .outside p ≠ .commits :=
      fun p hp' => by
        by_cases hpc : p = c
        · subst hpc; rw [Function.update_self] at hp'; cases hp'
        · rw [Function.update_of_ne hpc] at hp'
          exact hcm (hinv.committing p hp')
    exact {
      slots := hinv.slots
      used := fun p hout => by
        by_cases hpc : p = c
        · exact hpc ▸ hact'
        · refine hinv.used p fun hp' => hout ?_
          show Function.update (s.follow k').phase c .outside p = _
          rw [Function.update_of_ne hpc, hp']
      count := by
        show s.outstanding - 1 = (insideSet (Function.update (s.follow k').phase c .outside)).card
        rw [insideSet_leave (hsame.trans hp) (by simp), ← hinv.count]
        rfl
      commits := fun hcm' => absurd hcm' hcm
      committing := fun p hp' => absurd hp' (hcommits p)
      single := fun p q hp' _ => absurd hp' (hcommits p) }

/-- The end of the commit. -/
theorem OpsInv.committed (h : OpsInv s) (hc : s.kernel.cpuProc = some c)
    (hp : s.phase c = .commits) (hs : committed s c = .ok s') : OpsInv s' := by
  obtain ⟨k', hk', hs⟩ := bind_eq_ok.mp hs
  cases hs
  obtain ⟨hinv, hact, hsame⟩ := h.part (.inr rfl) hc hk'
  have hcommits : ∀ p, Function.update (s.follow k').phase c .outside p ≠ .commits :=
    fun p hp' => by
      by_cases hpc : p = c
      · subst hpc; rw [Function.update_self] at hp'; cases hp'
      · rw [Function.update_of_ne hpc] at hp'
        exact hpc (hinv.single p c hp' (hsame.trans hp))
  exact {
    slots := hinv.slots
    used := fun p hout => by
      by_cases hpc : p = c
      · exact hpc ▸ hact
      · refine hinv.used p fun hp' => hout ?_
        show Function.update (s.follow k').phase c .outside p = _
        rw [Function.update_of_ne hpc, hp']
    count := by
      show s.outstanding = (insideSet (Function.update (s.follow k').phase c .outside)).card
      rw [insideSet_other (by rw [hsame, hp]; simp) (by simp)]
      exact hinv.count
    commits := fun hcm => by cases hcm
    committing := fun p hp' => absurd hp' (hcommits p)
    single := fun p q hp' _ => absurd hp' (hcommits p) }

theorem byRunning_ok {f : Slot → Except Stop LogRun} (hs : byRunning s f = .ok s') :
    ∃ c, s.kernel.cpuProc = some c ∧ f c = .ok s' := by
  rw [byRunning] at hs
  split at hs
  · cases hs
  · exact ⟨_, ‹_›, hs⟩

/-- One step. -/
theorem OpsInv.step {e : LogStep} (h : OpsInv s) (he : OpsDone s e) (hs : logStep s e = .ok s') :
    OpsInv s' := by
  cases e with
  | kernel e =>
    rw [logStep] at hs
    split at hs
    · rename_i ha
      obtain ⟨k', hk', hs⟩ := bind_eq_ok.mp hs
      cases hs
      exact h.follow he (allowed_ends ha) hk'
    · cases hs
  | beginOp =>
    obtain ⟨c, hc, hs⟩ := byRunning_ok hs
    split at hs
    · rename_i hp
      exact h.beginOp hc (hp.imp_right And.left) hs
    · cases hs
  | logWrite new =>
    obtain ⟨c, _, hs⟩ := byRunning_ok hs
    split at hs
    · rw [logWrite] at hs
      split at hs
      · cases hs
      · split at hs
        · cases hs
        · cases hs
          exact ⟨h.slots, h.used, h.count, h.commits, h.committing, h.single⟩
    · cases hs
  | endOp =>
    obtain ⟨c, hc, hs⟩ := byRunning_ok hs
    split at hs
    · exact h.endOp hc ‹_› hs
    · cases hs
  | committed =>
    obtain ⟨c, hc, hs⟩ := byRunning_ok hs
    split at hs
    · exact h.committed hc ‹_› hs
    · cases hs

/-- The start. -/
theorem OpsInv.init (h : LogInit s) : OpsInv s := by
  obtain ⟨hinit, hphase, hout, hcm, _⟩ := h
  exact {
    slots := .init hinit
    used := fun p hp => absurd (hphase p) hp
    count := by
      have hset : insideSet s.phase = ∅ := by
        ext p
        simp [mem_insideSet, hphase p]
      rw [hout, hset, Finset.card_empty]
    commits := fun hc => by rw [hcm] at hc; cases hc
    committing := fun p hp => by rw [hphase p] at hp; cases hp
    single := fun p q hp => by rw [hphase p] at hp; cases hp }

/-- In every run in which `exit` and `exec` release no thread inside an operation or a commit,
    `outstanding` is the number of processes between `begin_op` and `end_op`, and a commit that
    has begun is made by a process that is still there. -/
theorem outstanding_counts (h : Reachable LogInit (Steps logStep OpsDone) s) :
    s.outstanding = insideCount s ∧ (s.committing = true →
      ∃ p, s.phase p = .commits ∧ (s.kernel.proc p).state ≠ .UNUSED) := by
  have hinv : OpsInv s := h.invariant (fun _ => OpsInv.init) fun _ _ hi ⟨_, he, hs⟩ => hi.step he hs
  have hused : ∀ p, s.phase p ≠ .outside → (s.kernel.proc p).state ≠ .UNUSED := fun p hp hu => by
    have hact := hinv.used p hp
    rw [hu] at hact
    simp [ProcState.active] at hact
  refine ⟨?_, fun hc => ?_⟩
  · have hset : insideSet s.phase = Finset.univ.filter fun p =>
        s.phase p = .inside ∧ (s.kernel.proc p).state ≠ .UNUSED := by
      ext p
      rw [mem_insideSet, Finset.mem_filter]
      exact ⟨fun hp => ⟨Finset.mem_univ p, hp, hused p (by simp [hp])⟩, fun hp => hp.2.1⟩
    rw [hinv.count, hset, insideCount]
  · obtain ⟨p, hp⟩ := hinv.commits hc
    exact ⟨p, hp, hused p (by simp [hp])⟩

/-- The steps of the `exit()` of a main thread that has one other thread, which is not a zombie;
    `ends` are those of an `end_op`. -/
def exitLogged (ends : List LogStep) : List LogStep :=
  .kernel .exitBegin :: List.replicate (NOFILE + 3) (.kernel .closeFiles) ++
    .beginOp :: ends ++ List.replicate (NOFILE + 2) (.kernel .closeFiles) ++
    .beginOp :: ends ++ [.kernel .closeFiles, .kernel .exit]

/-- The second thread of a process makes an operation, the process exits, and then init begins an
    operation. -/
theorem outstanding_counts_exit : ∃ s, s.outstanding = 1 ∧ insideCount s = 1 := by
  obtain ⟨k₀, h₀⟩ : ∃ k, userinit boot 7 = .ok k := ⟨_, rfl⟩
  have hstart : Reachable LogInit (Steps logStep OpsDone) ⟨k₀, fun _ => .outside, 0, false, 0⟩ :=
    .start ⟨⟨7, h₀⟩, fun _ => rfl, rfl, rfl, rfl⟩
  obtain ⟨s, hs, hp⟩ := reachable_of_reachTest logStep OpsDone (fun s => s.outstanding = 1)
    (twoThreads.map .kernel ++ [.kernel .yield, .kernel .schedule, .beginOp, .endOp, .committed,
      .kernel .yield, .kernel .schedule, .kernel .schedule] ++ exitLogged [.endOp, .committed] ++
      [.kernel .schedule, .kernel .schedule, .kernel .wait, .beginOp])
    hstart (by cases h₀; decide +kernel)
  have hout := of_decide_eq_true hp
  exact ⟨s, hout, (outstanding_counts hs).1.symm.trans hout⟩

/-- The main thread exits while the other thread sleeps inside an operation. -/
theorem outstanding_stays : ∃ s, Reachable LogInit (Steps logStep fun _ _ => True) s ∧
    s.outstanding = 1 ∧ insideCount s = 0 := by
  obtain ⟨k₀, h₀⟩ : ∃ k, userinit boot 7 = .ok k := ⟨_, rfl⟩
  have hstart : Reachable LogInit (Steps logStep fun _ _ => True)
      ⟨k₀, fun _ => .outside, 0, false, 0⟩ := .start ⟨⟨7, h₀⟩, fun _ => rfl, rfl, rfl, rfl⟩
  obtain ⟨s, hs, hp⟩ := reachable_of_reachTest logStep (fun _ _ => True)
    (fun s => s.outstanding = 1 ∧ insideCount s = 0)
    (twoThreads.map .kernel ++ [.kernel .yield, .kernel .schedule, .beginOp,
      .kernel (.sleep (.other 1)), .kernel .schedule, .kernel .schedule] ++ exitLogged [.endOp])
    hstart (by cases h₀; decide +kernel)
  exact ⟨s, hs, of_decide_eq_true hp⟩

end Xv6.Thread
