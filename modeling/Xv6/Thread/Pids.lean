import Xv6.Thread.Change

namespace Xv6.Thread

open Xv6.Lib

/-!
# Threads — process identifiers

`allocproc` gives every slot a new `pid`, and `thread_create` replaces it by the one of the main
thread.  `PidsOk` says that a `pid` belongs to one process; `PidsOk.step` shows that the steps that
keep the groups together keep it.
-/

variable {D W : Prop} {k k' : Kernel} {c m p q : Slot} {e : Step}

/-! ### `nextpid` -/

theorem nextpid_freeThreads {cond : Kernel → Slot → Bool} {n : Nat} {h : Option Slot}
    (hs : freeThreads cond n k h = .ok k') : k'.nextpid = k.nextpid := by
  induction n generalizing k h with
  | zero =>
    cases h with
    | none => cases hs; rfl
    | some p => cases hs
  | succ n ih =>
    cases h with
    | none => cases hs; rfl
    | some p =>
      rw [freeThreads] at hs
      rw [ih hs]
      split <;> rfl

theorem nextpid_reparent : (reparent k c).nextpid = k.nextpid := by
  rw [reparent]
  split <;> rfl

theorem nextpid_closeFile {fd : Nat} (hs : closeFile k p fd = .ok k') :
    k'.nextpid = k.nextpid := by
  obtain ⟨f, _, rfl⟩ := closeFile_ok hs
  rfl

theorem nextpid_closeFiles (hs : closeFiles k c = .ok k') : k'.nextpid = k.nextpid := by
  rw [closeFiles] at hs
  split at hs
  · cases hs
  · cases hs
  · cases hs; rfl
  · obtain ⟨k₁, hk₁, hs⟩ := bind_eq_ok.mp hs
    cases hs
    exact (nextpid_closeFile hk₁ :)
  · split at hs <;> (cases hs; rfl)
  · obtain ⟨k₁, hk₁, hs⟩ := bind_eq_ok.mp hs
    cases hs
    exact (nextpid_closeFile hk₁ :)

theorem nextpid_setSz (sz : Nat) (xs : List Slot) : (setSz k sz xs).nextpid = k.nextpid := by
  rw [setSz_eq]

theorem nextpid_createFinish {np : Slot} {ok : Bool} (hs : createFinish k c m np ok = .ok k') :
    k'.nextpid = k.nextpid := by
  rw [createFinish] at hs
  split at hs
  · cases hs; rfl
  · split at hs
    · cases hs; rfl
    · rw [linkThread] at hs
      split at hs
      · cases hs
      · obtain ⟨m, _, hs⟩ := bind_eq_ok.mp hs
        split at hs
        · cases hs
        · cases hs
          exact nextpid_setSz ..

theorem nextpid_exitBegin (hs : exitBegin k c = .ok k') : k'.nextpid = k.nextpid := by
  rw [exitBegin] at hs
  split at hs
  · cases hs
  · obtain ⟨m, _, hs⟩ := bind_eq_ok.mp hs
    cases hs
    rfl

theorem nextpid_moveCurrent {prev : Slot} (hs : moveCurrent k p prev = .ok k') :
    k'.nextpid = k.nextpid := by
  obtain ⟨m, _, hs⟩ := bind_eq_ok.mp hs
  split at hs <;> (cases hs; rfl)

theorem nextpid_unlinkLoop {n : Nat} {prev prev' : Slot}
    (hs : unlinkLoop p n k prev = .ok (k', prev')) : k'.nextpid = k.nextpid := by
  induction n generalizing k prev with
  | zero => cases hs
  | succ n ih =>
    rw [unlinkLoop] at hs
    split at hs
    · cases hs; rfl
    · obtain ⟨q, _, hs⟩ := bind_eq_ok.mp hs
      exact (ih hs :)

theorem nextpid_joinCheck (hs : joinCheck k c m p = .ok k') : k'.nextpid = k.nextpid := by
  rw [joinCheck] at hs
  split at hs
  · cases hs; rfl
  · obtain ⟨k₁, hk₁, hs⟩ := bind_eq_ok.mp hs
    cases hs
    rw [unlinkThread] at hk₁
    split at hk₁
    · exact (nextpid_moveCurrent hk₁ :)
    · obtain ⟨q, _, hk₁⟩ := bind_eq_ok.mp hk₁
      obtain ⟨⟨k₂, prev⟩, hk₂, hk₁⟩ := bind_eq_ok.mp hk₁
      have hloop := nextpid_unlinkLoop hk₂
      exact (nextpid_moveCurrent hk₁).trans hloop

theorem nextpid_execFinish {old : Option Nat} (hs : execFinish k c old = .ok k') :
    k'.nextpid = k.nextpid := by
  obtain ⟨k₂, hk₂, hs⟩ := bind_eq_ok.mp hs
  obtain ⟨k₁, hk₁, hk₂⟩ := bind_eq_ok.mp hk₂
  cases hk₂
  obtain ⟨d, _, rfl⟩ := freevm_ok hs
  exact (nextpid_freeThreads hk₁ :)

theorem nextpid_schedule (hs : schedule k = .ok k') : k'.nextpid = k.nextpid := by
  rw [schedule] at hs
  split at hs
  · cases hs
  · split at hs
    · cases hs; rfl
    · obtain ⟨m, _, hs⟩ := bind_eq_ok.mp hs
      obtain ⟨cur, _, hs⟩ := bind_eq_ok.mp hs
      split at hs
      · cases hs
      · cases hs; rfl

theorem nextpid_allocproc {next : Slot → Call} {ok : Bool} (hp : firstUnused k = some p) :
    (allocproc k c next ok).nextpid = k.nextpid + 1 := by
  rw [allocproc, hp]
  dsimp only
  split <;> rfl

theorem nextpid_allocproc_none {next : Slot → Call} {ok : Bool} (hp : firstUnused k = none) :
    (allocproc k c next ok).nextpid = k.nextpid := by
  rw [allocproc, hp]
  rfl

/-- A step that takes a slot takes a `pid`. -/
theorem nextpid_alloc (he : e.allocates = true) (hp : firstUnused k = some p)
    (hs : step k e = .ok k') : k'.nextpid = k.nextpid + 1 := by
  rw [step] at hs
  split at hs
  · cases hs
  cases e with
  | forkAlloc ok =>
    obtain ⟨c, _, _, hs⟩ := byUser_ok hs
    cases hs
    exact nextpid_allocproc hp
  | createAlloc ok =>
    obtain ⟨c, _, _, hs⟩ := byUser_ok hs
    obtain ⟨m, _, hs⟩ := bind_eq_ok.mp hs
    cases hs
    exact nextpid_allocproc hp
  | _ => cases he

/-- No step gives a `pid` back. -/
theorem nextpid_le (hs : step k e = .ok k') : k.nextpid ≤ k'.nextpid := by
  by_cases halloc : e.allocates = true ∧ ∃ p, firstUnused k = some p
  · obtain ⟨he, p, hp⟩ := halloc
    rw [nextpid_alloc he hp hs]
    omega
  refine le_of_eq (Eq.symm ?_)
  have hnone : e.allocates = true → firstUnused k = none := fun he => by
    cases hp : firstUnused k with
    | none => rfl
    | some p => exact absurd ⟨he, p, hp⟩ halloc
  rw [step] at hs
  split at hs
  · cases hs
  cases e with
  | forkAlloc ok =>
    obtain ⟨c, _, _, hs⟩ := byUser_ok hs
    cases hs
    exact nextpid_allocproc_none (hnone rfl)
  | forkCopy dir =>
    obtain ⟨c, _, hs⟩ := byProc_ok hs
    split at hs
    · cases dir with
      | none => cases hs; rfl
      | some d =>
        obtain ⟨k₁, hk₁, hs⟩ := bind_eq_ok.mp hs
        obtain ⟨_, rfl⟩ := newDir_ok hk₁
        obtain ⟨m, _, hs⟩ := bind_eq_ok.mp hs
        cases hs
        rfl
    · cases hs
  | forkRun =>
    obtain ⟨c, _, hs⟩ := byProc_ok hs
    split at hs
    · cases hs; rfl
    · cases hs
  | createAlloc ok =>
    obtain ⟨c, _, _, hs⟩ := byUser_ok hs
    obtain ⟨m, _, hs⟩ := bind_eq_ok.mp hs
    cases hs
    exact nextpid_allocproc_none (hnone rfl)
  | createFinish ok =>
    obtain ⟨c, _, hs⟩ := byProc_ok hs
    split at hs
    · exact nextpid_createFinish hs
    · cases hs
  | exitBegin =>
    obtain ⟨c, _, _, hs⟩ := byUser_ok hs
    exact nextpid_exitBegin hs
  | threadExitBegin r =>
    obtain ⟨c, _, _, hs⟩ := byUser_ok hs
    rw [threadExitBegin] at hs
    split at hs
    · exact nextpid_exitBegin hs
    · cases hs; rfl
  | closeFiles =>
    obtain ⟨c, _, hs⟩ := byProc_ok hs
    exact nextpid_closeFiles hs
  | exit =>
    obtain ⟨c, _, hs⟩ := byProc_ok hs
    split at hs
    · obtain ⟨k₁, hk₁, hs⟩ := bind_eq_ok.mp hs
      cases hs
      have hfree := nextpid_freeThreads hk₁
      exact nextpid_reparent.trans hfree
    · cases hs
  | threadExit =>
    obtain ⟨c, _, hs⟩ := byProc_ok hs
    split at hs
    · split at hs
      · cases hs; exact nextpid_reparent
      · cases hs
    · cases hs
  | wait =>
    obtain ⟨c, _, hs⟩ := byProc_ok hs
    split at hs
    · rw [wait] at hs
      split at hs
      · obtain ⟨m, _, hs⟩ := bind_eq_ok.mp hs
        obtain ⟨k₁, hk₁, hs⟩ := bind_eq_ok.mp hs
        obtain ⟨d, _, rfl⟩ := freevm_ok hk₁
        cases hs
        rfl
      · split at hs <;> (cases hs; rfl)
    · cases hs
  | threadJoin tid =>
    obtain ⟨c, _, _, hs⟩ := byUser_ok hs
    obtain ⟨m, _, hs⟩ := bind_eq_ok.mp hs
    split at hs
    · cases hs
    · cases hs; rfl
    · exact nextpid_joinCheck hs
  | joinCheck =>
    obtain ⟨c, _, hs⟩ := byProc_ok hs
    split at hs
    · exact nextpid_joinCheck hs
    · cases hs
  | execCommit d sz =>
    obtain ⟨c, _, _, hs⟩ := byUser_ok hs
    rw [execCommit] at hs
    split at hs
    · cases hs
    · obtain ⟨k₁, hk₁, hs⟩ := bind_eq_ok.mp hs
      obtain ⟨_, rfl⟩ := newDir_ok hk₁
      obtain ⟨m, _, hs⟩ := bind_eq_ok.mp hs
      split at hs <;> (cases hs; rfl)
  | execFinish =>
    obtain ⟨c, _, hs⟩ := byProc_ok hs
    split at hs
    · split at hs
      · exact nextpid_execFinish hs
      · cases hs
    · cases hs
  | sbrk n =>
    obtain ⟨c, _, _, hs⟩ := byUser_ok hs
    rw [sbrk] at hs
    split at hs
    · cases hs; rfl
    · cases hs
  | growproc ok =>
    obtain ⟨c, _, hs⟩ := byProc_ok hs
    split at hs
    · obtain ⟨r, hr, hs⟩ := bind_eq_ok.mp hs
      rcases growproc_ok hr with rfl | ⟨m, sz, xs, _, _, _, rfl⟩
      · cases hs; rfl
      · cases hs; exact (nextpid_setSz sz xs :)
    · cases hs
  | setmemorylimit pid limit =>
    obtain ⟨c, _, _, hs⟩ := byUser_ok hs
    obtain ⟨r, hr, hs⟩ := bind_eq_ok.mp hs
    rcases setmemorylimit_ok hr with rfl | ⟨p, m, _, _, _, _, _, _, rfl⟩ <;> (cases hs; rfl)
  | kill pid =>
    obtain ⟨c, _, _, hs⟩ := byUser_ok hs
    cases hs
    rw [kill]
    split <;> rfl
  | fdalloc f =>
    obtain ⟨c, _, _, hs⟩ := byUser_ok hs
    cases hs
    rw [fdalloc]
    split <;> rfl
  | close fd =>
    obtain ⟨c, _, _, hs⟩ := byUser_ok hs
    cases hs
    rw [close]
    split <;> rfl
  | chdir ip =>
    obtain ⟨c, _, _, hs⟩ := byUser_ok hs
    cases hs
    rfl
  | sleep chan =>
    obtain ⟨c, _, hs⟩ := byProc_ok hs
    split at hs
    · cases hs
    · cases hs; rfl
  | yield =>
    obtain ⟨c, _, hs⟩ := byProc_ok hs
    cases hs
    rfl
  | wakeup chan =>
    cases hs
    rfl
  | schedule => exact nextpid_schedule hs

/-! ### Who has which `pid` -/

/-- A slot in use that is its own main thread. -/
def Head (v : Slot → View) (q : Slot) : Prop := (v q).life ≠ .unused ∧ (v q).main = some q

/-- The `pid` of a thread belongs to its process. -/
structure PidsOk (k : Kernel) : Prop where
  lt : ∀ q, (k.view q).life ≠ .unused → (k.view q).pid < k.nextpid
  heads : ∀ q q', Head k.view q → Head k.view q' → (k.view q).pid = (k.view q').pid → q = q'
  own : ∀ q m, Live k.view q → Head k.view m → (k.view q).pid = (k.view m).pid →
    (k.view q).main = some m

theorem Live.inUse {v : Slot → View} (h : Live v q) : (v q).life ≠ .unused := fun hu =>
  not_live_of_unused hu h

theorem Leader.head {v : Slot → View} (h : Leader v m) : Head v m := ⟨h.1.inUse, h.2⟩

/-- Where a slot that is its own main thread comes from. -/
theorem KernelInv.head_before (h : KernelInv D W k) (hch : Change k e k'.view)
    (hq : Head k'.view q) : (Head k.view q ∧ (k'.view q).pid = (k.view q).pid) ∨
    (e.allocates = true ∧ firstUnused k = some q ∧ (k'.view q).pid = k.nextpid) ∨
    (k.cpuProc = some q ∧ e = .execFinish ∧ (k'.view q).pid = (k.view q).pid ∧
      ∀ m q', Runs k.view m q → Member k.view m q' → q' ≠ q → (k'.view q').life = .unused) := by
  cases hch.slot h q with
  | stays hlife hmain hpid =>
    refine .inl ⟨?_, hpid⟩
    rw [Head, ← hlife, ← hmain]
    exact hq
  | dead _ hq' hnew =>
    have hemb : (k'.view q).life = .embryo := by
      cases hl : (k'.view q).life with
      | unused => exact absurd hl hq.1
      | embryo => rfl
      | active => exact absurd (.inl hl) hq'
      | zombie => exact absurd (.inr hl) hq'
    rcases hnew hemb with ⟨hold, hmain, hpid⟩ | ⟨halloc, hp, _, hpid⟩ | ⟨_, m, _, hmq, hmain, _⟩
    · exact .inl ⟨⟨by rw [hold]; simp, hmain ▸ hq.2⟩, hpid⟩
    · exact .inr (.inl ⟨halloc, hp, hpid⟩)
    · exact absurd (Option.some.inj (hmain.symm.trans hq.2)) hmq
  | freed _ hq' => exact absurd hq' hq.1
  | ended hc _ heq =>
    have hmain : (k.view q).main = some q := by rw [← hq.2, heq]
    exact .inl ⟨⟨by rw [h.cpu q hc]; simp, hmain⟩, by rw [heq]⟩
  | started hnew heq => exact .inl ⟨⟨by rw [hnew.life]; simp, hnew.main⟩, by rw [heq]⟩
  | created c m _ hm hqe heq =>
    have hmq : m = q := Option.some.inj (by rw [← hq.2, heq])
    subst hmq
    obtain ⟨_, hlead, _⟩ := h.inv.leader_of_active hm.1 hm.2
    exact absurd hlead.1 (not_live_of_embryo hqe)
  | replaced hc he heq hrel => exact .inr (.inr ⟨hc, he, by rw [heq], hrel⟩)

/-- The main thread of the running process, and its `pid`. -/
theorem KernelInv.cpu_main (h : KernelInv D W k) (hc : k.cpuProc = some c) :
    ∃ m, Runs k.view m c ∧ Leader k.view m ∧ (k.view c).pid = (k.view m).pid := by
  have hact := h.cpu c hc
  obtain ⟨m, hm⟩ := (h.inv.slots c).main (.inl hact)
  obtain ⟨hmem, hlead, _⟩ := h.inv.leader_of_active hact hm
  exact ⟨m, ⟨hact, hm⟩, hlead, (h.inv.groups m).pid hlead c hmem⟩

/-- A slot in use has a `pid` that was given out. -/
theorem PidsOk.lt_step (hp : PidsOk k) (h : KernelInv D W k) (hch : Change k e k'.view)
    (hs : Thread.step k e = .ok k') (hq : (k'.view q).life ≠ .unused) :
    (k'.view q).pid < k'.nextpid := by
  have hle := nextpid_le hs
  have hold : ∀ {p : Slot}, (k.view p).life ≠ .unused → (k'.view q).pid = (k.view p).pid →
      (k'.view q).pid < k'.nextpid := fun hu heq => by
    have := hp.lt _ hu
    omega
  cases hch.slot h q with
  | stays hlife _ hpid => exact hold (hlife ▸ hq) hpid
  | dead _ hq' hnew =>
    have hemb : (k'.view q).life = .embryo := by
      cases hl : (k'.view q).life with
      | unused => exact absurd hl hq
      | embryo => rfl
      | active => exact absurd (.inl hl) hq'
      | zombie => exact absurd (.inr hl) hq'
    rcases hnew hemb with ⟨hemb, _, hpid⟩ | ⟨halloc, hfirst, _, hpid⟩ | ⟨_, m, hlead, _, _, hpid⟩
    · exact hold (by rw [hemb]; simp) hpid
    · rw [hpid, nextpid_alloc halloc hfirst hs]
      omega
    · exact hold hlead.1.inUse hpid
  | freed _ hq' => exact absurd hq' hq
  | ended hc _ heq => exact hold (by rw [h.cpu q hc]; simp) (by rw [heq])
  | started hnew heq => exact hold (by rw [hnew.life]; simp) (by rw [heq])
  | created c m _ hm _ heq =>
    obtain ⟨_, hlead, _⟩ := h.inv.leader_of_active hm.1 hm.2
    exact hold hlead.1.inUse (by rw [heq])
  | replaced hc _ heq => exact hold (by rw [h.cpu q hc]; simp) (by rw [heq])

/-- Two main threads have different identifiers. -/
theorem PidsOk.heads_step (hp : PidsOk k) (h : KernelInv D W k) (hch : Change k e k'.view)
    {q' : Slot} (hq : Head k'.view q) (hq' : Head k'.view q')
    (hpid : (k'.view q).pid = (k'.view q').pid) : q = q' := by
  -- a main thread that was one before and the caller of `exec`
  have hexec : ∀ {q q' : Slot}, Head k'.view q → Head k.view q →
      (k'.view q).pid = (k.view q).pid → k.cpuProc = some q' →
      (∀ m p, Runs k.view m q' → Member k.view m p → p ≠ q' → (k'.view p).life = .unused) →
      (k'.view q).pid = (k.view q').pid → q = q' := fun {q q'} hq hold hqp hc hrel heq => by
    obtain ⟨m, hm, hlead, hmp⟩ := h.cpu_main hc
    have hqm : q = m := hp.heads q m hold hlead.head (by rw [← hqp, heq, hmp])
    subst hqm
    by_contra hne
    exact hq.1 (hrel q q hm hlead hne)
  rcases h.head_before hch hq with ⟨hold, h₁⟩ | ⟨ha, hf, h₁⟩ | ⟨hc, he, h₁, hrel⟩
  · rcases h.head_before hch hq' with ⟨hold', h₂⟩ | ⟨_, _, h₂⟩ | ⟨hc, _, h₂, hrel⟩
    · exact hp.heads q q' hold hold' (by rw [← h₁, hpid, h₂])
    · have := hp.lt q hold.1
      omega
    · exact hexec hq hold h₁ hc hrel (hpid.trans h₂)
  · rcases h.head_before hch hq' with ⟨hold', h₂⟩ | ⟨_, hf', _⟩ | ⟨_, he, _⟩
    · have := hp.lt q' hold'.1
      omega
    · exact Option.some.inj (hf.symm.trans hf')
    · rw [he] at ha; cases ha
  · rcases h.head_before hch hq' with ⟨hold', h₂⟩ | ⟨ha, _⟩ | ⟨hc', _⟩
    · exact (hexec hq' hold' h₂ hc hrel (hpid.symm.trans h₁)).symm
    · rw [he] at ha; cases ha
    · exact Option.some.inj (hc.symm.trans hc')

/-- A thread with the `pid` of a main thread belongs to it. -/
theorem PidsOk.own_step (hp : PidsOk k) (h : KernelInv D W k) (hch : Change k e k'.view)
    (hq : Live k'.view q) (hm : Head k'.view m) (hpid : (k'.view q).pid = (k'.view m).pid) :
    (k'.view q).main = some m := by
  by_cases hqm : q = m
  · subst hqm; exact hm.2
  have hhead : Head k'.view q → (k'.view q).main = some m := fun hh =>
    absurd (hp.heads_step h hch hh hm hpid) hqm
  -- a thread that was there before
  have hold : Live k.view q → (k'.view q).pid = (k.view q).pid →
      (k'.view q).main = (k.view q).main → (k'.view q).main = some m := fun hlive hqp hmain => by
    rw [hmain]
    rcases h.head_before hch hm with ⟨hold, h₂⟩ | ⟨_, _, h₂⟩ | ⟨hc, _, h₂, hrel⟩
    · exact hp.own q m hlive hold (by rw [← hqp, hpid, h₂])
    · have := hp.lt q hlive.inUse
      omega
    · obtain ⟨m₀, hm₀, hlead, hmp⟩ := h.cpu_main hc
      have hq₀ := hp.own q m₀ hlive hlead.head (by rw [← hqp, hpid, h₂, hmp])
      exact absurd (hrel m₀ q hm₀ ⟨hlive, hq₀⟩ hqm) hq.inUse
  cases hch.slot h q with
  | stays hlife hmain hqp => exact hold (by rw [Live, ← hlife]; exact hq) hqp hmain
  | dead _ hq' => exact absurd hq hq'
  | freed _ hq' => exact absurd hq' hq.inUse
  | ended hc _ heq => exact hold (.inl (h.cpu q hc)) (by rw [heq]) (by rw [heq])
  | started hnew heq => exact hhead ⟨hq.inUse, by rw [heq]; exact hnew.main⟩
  | created c m₀ _ hm₀ _ heq hmain =>
    obtain ⟨_, hlead, _⟩ := h.inv.leader_of_active hm₀.1 hm₀.2
    have hm₀' : Head k'.view m₀ := by
      rw [Head, hmain]
      exact hlead.head
    have hmm : m₀ = m := hp.heads_step h hch hm₀' hm (by rw [← hpid, heq, hmain])
    rw [heq, hmm]
  | replaced _ _ heq => exact hhead ⟨hq.inUse, by rw [heq]⟩

/-- A step that keeps the groups together keeps the identifiers of the processes apart. -/
theorem PidsOk.step (hp : PidsOk k) (h : KernelInv D W k) (he : KeepsGroups k e)
    (hs : Thread.step k e = .ok k') : PidsOk k' := by
  have hch := h.step_change he hs
  exact ⟨fun _ hq => hp.lt_step h hch hs hq, fun _ _ hq hq' => hp.heads_step h hch hq hq',
    fun _ _ hq hm => hp.own_step h hch hq hm⟩

/-- There is one process at the start. -/
theorem PidsOk.init (h : Init k) : PidsOk k := by
  obtain ⟨d, hproc, _, _, _, hnext, _⟩ := init_eq h
  have honly : ∀ q, (k.view q).life ≠ .unused → q = 0 := fun q hq => by
    by_contra hne
    rw [Kernel.view, hproc, Function.update_of_ne hne] at hq
    exact hq rfl
  have hself : k.view 0 = (initProc d).view := by rw [Kernel.view, hproc, Function.update_self]
  refine ⟨fun q hq => ?_, fun q q' hq hq' _ => (honly q hq.1).trans (honly q' hq'.1).symm,
    fun q m hq hm _ => ?_⟩
  · obtain rfl := honly q hq
    rw [hself, hnext]
    show (1 : Int) < 2
    omega
  · obtain rfl := honly q hq.inUse
    obtain rfl := honly m hm.1
    exact hm.2

end Xv6.Thread
