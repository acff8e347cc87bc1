import Xv6.Thread.Change
import Xv6.Thread.Fields

namespace Xv6.Thread

open Xv6.Lib

/-!
# Threads — the memory that `sbrk` hands out

`sys_sbrk` reads the size of the process, which it will return, before `growproc` takes the lock
and reads it again.  Two threads of a process may both read the size before one of them grows the
process.  A run of the machine is extended with the list of the memory that `sbrk` has returned to
the threads of one process:

* `sbrk_disjoint` — if every `growproc` that succeeds finds the size that its thread has read, the
  ranges are disjoint and lie between the old size and the new one, and they add up;
* `sbrk_overlaps` — a run in which two threads are given the same memory.
-/

/-- Memory that `sbrk(n)` has returned. -/
structure Grant where
  addr : Int
  n : Int
  deriving DecidableEq, Repr

/-- The addresses of the memory. -/
def Grant.range (g : Grant) : Set Int := Set.Ico g.addr (g.addr + g.n)

/-- The machine, and the memory that the threads of one process were given. -/
structure SbrkRun where
  kernel : Kernel
  grants : List Grant

/-- What the step `e` from `k` to `k'` gives to a thread of the process of `m`: the address that
    `sbrk(n)` returns, unless it is -1. -/
def handsOut (m : Slot) (k : Kernel) (e : Step) (k' : Kernel) : List Grant :=
  match e, k.cpuProc with
  | .growproc _, some c =>
    match k.call c with
    | .sbrk _ n =>
      if (k.proc c).mainThread = some m ∧ (k'.proc c).eax ≠ -1 then [⟨(k'.proc c).eax, n⟩] else []
    | _ => []
  | _, _ => []

/-- One step of the machine, with what it gives to the threads of `m`. -/
def sbrkStep (m : Slot) (s : SbrkRun) (e : Step) : Except Stop SbrkRun := do
  let k' ← step s.kernel e
  .ok ⟨k', s.grants ++ handsOut m s.kernel e k'⟩

/-- The size that a thread inside `sbrk(n)` has read, and `n`. -/
def Call.sbrkArgs : Call → Option (Nat × Int)
  | .sbrk addr n => some (addr, n)
  | _ => none

/-- The other steps that change the size of a process, or end it. -/
def Step.resizes : Step → Bool
  | .createFinish _ | .execCommit _ _ | .execFinish | .exit => true
  | _ => false

/-- The threads of the process of `m` call `sbrk(n)` with `0 < n`, and no other call that changes
    the size of the process or ends it. -/
def OnlySbrk (m : Slot) (k : Kernel) (e : Step) : Prop :=
  ∀ c ∈ k.cpuProc, (k.proc c).mainThread = some m → e.resizes = false ∧
    ∀ ok, e = .growproc ok → ∀ a ∈ (k.call c).sbrkArgs, 0 < a.2

/-- A `growproc` that succeeds finds the size that its thread has read before. -/
def SizeAsRead (m : Slot) (k : Kernel) (e : Step) : Prop :=
  ∀ c ∈ k.cpuProc, (k.proc c).mainThread = some m → ∀ ok, e = .growproc ok →
    ∀ a ∈ (k.call c).sbrkArgs, newSize k m a.2 ok ≠ none → a.1 = (k.proc m).sz

/-- The steps of a run in which the threads of `m` grow their process. -/
def Grows (m : Slot) (s : SbrkRun) (e : Step) : Prop :=
  KeepsGroups s.kernel e ∧ OnlySbrk m s.kernel e

/-- The steps of such a run in which no other thread has changed the size in between. -/
def GrowsAlone (m : Slot) (s : SbrkRun) (e : Step) : Prop :=
  Grows m s e ∧ SizeAsRead m s.kernel e

/-- The slot holds the main thread of a process that has not ended. -/
def IsProcess (k : Kernel) (m : Slot) : Prop :=
  (k.proc m).mainThread = some m ∧ ((k.proc m).state = .SLEEPING ∨ (k.proc m).state = .RUNNABLE ∨
    (k.proc m).state = .RUNNING)

instance (m : Slot) (k : Kernel) (e : Step) : Decidable (OnlySbrk m k e) :=
  inferInstanceAs (Decidable (∀ c ∈ k.cpuProc, _ → _ ∧ ∀ _, _ → ∀ a ∈ (k.call c).sbrkArgs, _))

instance (m : Slot) (k : Kernel) (e : Step) : Decidable (SizeAsRead m k e) :=
  inferInstanceAs (Decidable (∀ c ∈ k.cpuProc, _ → ∀ _, _ → ∀ a ∈ (k.call c).sbrkArgs, _ → _))

instance (m : Slot) (s : SbrkRun) (e : Step) : Decidable (Grows m s e) :=
  inferInstanceAs (Decidable (_ ∧ _))

instance (m : Slot) (s : SbrkRun) (e : Step) : Decidable (GrowsAlone m s e) :=
  inferInstanceAs (Decidable (_ ∧ _))

instance (k : Kernel) (m : Slot) : Decidable (IsProcess k m) :=
  inferInstanceAs (Decidable (_ ∧ _))

variable {D W : Prop} {k k' : Kernel} {c m : Slot} {e : Step}

/-! ### Sizes -/

/-- The sizes of all slots are below `KERNBASE`, and the arguments of `sbrk` are integers. -/
structure SizesOk (k : Kernel) : Prop where
  sz : ∀ q, (k.proc q).sz < KERNBASE
  arg : ∀ c addr n, k.call c = .sbrk addr n → n < 2 ^ 31

theorem allocuvm_lt {a b : Nat} (ok : Bool) (ha : a < KERNBASE) : allocuvm a b ok < KERNBASE := by
  rw [allocuvm]
  have h0 : 0 < KERNBASE := by decide
  split_ifs <;> omega

theorem newSize_lt {n : Int} {ok : Bool} {sz : Nat} (h : newSize k m n ok = some sz)
    (hm : (k.proc m).sz < KERNBASE) : sz < KERNBASE := by
  rw [newSize] at h
  split_ifs at h with h₁ h₂ h₃ h₄
  · cases h; exact allocuvm_lt ok hm
  · cases h; exact lt_of_le_of_lt (min_le_left ..) hm
  · cases h; exact hm

/-- Growing by a positive number adds it to the size. -/
theorem newSize_pos {n : Int} {ok : Bool} {sz : Nat} (h : newSize k m n ok = some sz)
    (hm : (k.proc m).sz < KERNBASE) (hpos : 0 < n) (hn : n < 2 ^ 31) :
    (sz : Int) = (k.proc m).sz + n := by
  have hk : KERNBASE = 2 ^ 31 := by decide
  rw [hk] at hm
  -- the sum does not wrap around
  have hmod : (((k.proc m).sz : Int) + n) % 2 ^ 32 = (k.proc m).sz + n :=
    Int.emod_eq_of_lt (by omega) (by omega)
  rw [newSize] at h
  simp only [if_pos hpos, hmod] at h
  split_ifs at h with h₁ h₂
  cases h
  rw [allocuvm] at h₂ ⊢
  split_ifs at h₂ ⊢ with h₃ h₄ h₅ <;> omega

theorem stackSize_lt {ok : Bool} : stackSize k m ok < KERNBASE := by
  rw [stackSize, allocuvm]
  have h0 : 0 < KERNBASE := by decide
  have h1 : 0 < 2 * PGSIZE := by decide
  split_ifs <;> omega

theorem sz_of_kept {q : Slot} (h : k'.kept q = k.kept q) : (k'.proc q).sz = (k.proc q).sz :=
  congrArg Kept.sz h

/-- An assignment to the fields of one slot. -/
theorem sz_of_update {p : Slot} {w : Kept} (h : k'.kept = Function.update k.kept p w) (q : Slot) :
    (k'.proc q).sz = if q = p then w.sz else (k.proc q).sz := by
  have hq := congrArg Kept.sz (congrFun h q)
  by_cases hqp : q = p
  · subst hqp
    rw [Function.update_self] at hq
    rw [if_pos rfl]
    exact hq
  · rw [Function.update_of_ne hqp] at hq
    rw [if_neg hqp]
    exact hq

/-- A step sets sizes below `KERNBASE`. -/
theorem SizesOk.step (hok : SizesOk k) (h : KernelInv D W k) (he : KeepsGroups k e)
    (hs : Thread.step k e = .ok k') : SizesOk k' := by
  refine ⟨fun q => ?_, fun c addr n hc => ?_⟩
  · have hset : ∀ {p : Slot} {w : Kept}, k'.kept = Function.update k.kept p w →
        w.sz < KERNBASE → (k'.proc q).sz < KERNBASE := fun heq hw => by
      rw [sz_of_update heq q]
      split
      · exact hw
      · exact hok.sz q
    have hall : ∀ {S : Slot → Prop} {sz : Nat}, SetsSz k k' S sz → sz < KERNBASE →
        (k'.proc q).sz < KERNBASE := fun hS hlt => by
      rcases hS.sz q with ⟨_, hq⟩ | ⟨_, hq⟩
      · rw [hq]; exact hlt
      · rw [hq]; exact hok.sz q
    cases h.step_kept he hs with
    | same heq => rw [sz_of_kept (congrFun heq q)]; exact hok.sz q
    | allocated p _ heq => exact hset heq (hok.sz p)
    | forked c m np _ _ _ heq => exact hset heq (hok.sz m)
    | created c m np ok _ _ _ _ _ hS => exact hall hS stackSize_lt
    | leaked c m np ok _ _ _ _ hS => exact hall hS stackSize_lt
    | stopped c r _ _ _ heq => exact hset heq (hok.sz c)
    | joined c m p _ _ _ _ _ _ heq => exact hset heq (hok.sz m)
    | committed c d sz _ _ hlt heq => exact hset heq hlt
    | replaced c _ _ heq => exact hset heq (hok.sz c)
    | grown c m addr n ok sz _ _ _ _ hsz hS => exact hall hS (newSize_lt hsz (hok.sz m))
    | limited p m pid limit _ _ _ _ _ heq => exact hset heq (hok.sz m)
    | scheduled p m cur t _ _ _ _ heq => exact hset heq (hok.sz m)
  · rcases step_call hs c with (hsame | ⟨huser, _⟩) | ⟨_, huser | henter⟩
    · exact hok.arg c addr n (hsame ▸ hc)
    · rw [huser] at hc; cases hc
    · rw [huser] at hc; cases hc
    · rw [hc] at henter
      cases henter with
      | sbrk _ _ hhi => exact hhi

theorem SizesOk.init (h : Init k) : SizesOk k := by
  obtain ⟨d, hproc, hcall, _⟩ := init_eq h
  refine ⟨fun q => ?_, fun c addr n hc => by rw [hcall] at hc; cases hc⟩
  rw [hproc]
  by_cases hq : q = 0
  · subst hq
    rw [Function.update_self]
    show PGSIZE < KERNBASE
    decide
  · rw [Function.update_of_ne hq]
    show 0 < KERNBASE
    decide

theorem SizesOk.of_reachable (h : Reachable Init (Steps Thread.step KeepsGroups) k) : SizesOk k := by
  induction h with
  | start h₀ => exact .init h₀
  | step hr hst ih =>
    obtain ⟨e, he, hs⟩ := hst
    have hinv : KernelInv False False _ := .of_reachable (fun _ _ he => he) (fun hD => hD.elim)
      (fun hW => hW.elim) hr (free_of_step hs)
    exact ih.step hinv he hs

/-! ### The process of `m` -/

/-- The main thread of a process stays active while its threads only grow the process. -/
theorem KernelInv.stays_main (h : KernelInv D W k) (hm : Runs k.view m m) (he : KeepsGroups k e)
    (hexit : e = .exit ∨ e = .execFinish → ∀ c ∈ k.cpuProc, (k.proc c).mainThread ≠ some m)
    (hs : Thread.step k e = .ok k') : Runs k'.view m m := by
  have hlive : Live k.view m := .inl hm.1
  have hkeep : ∀ {v' : Slot → View}, (v' m).life = (k.view m).life →
      (v' m).main = (k.view m).main → Runs v' m m := fun hl hmain => by
    rw [Runs, hl, hmain]
    exact hm
  have hne : ∀ {p : Slot}, ¬ Live k.view p → m ≠ p := fun hp hmp => hp (hmp ▸ hlive)
  have hother : ∀ {c m' : Slot}, e = .exit ∨ e = .execFinish → k.cpuProc = some c →
      Runs k.view m' c → ¬ Member k.view m' m := fun {c m'} hee hc hm' hmem => by
    have hmm : m' = m := Option.some.inj (hmem.2.symm.trans hm.2)
    exact hexit hee c hc (hmm ▸ hm'.2)
  cases h.step_change he hs with
  | same heq => rw [heq]; exact hm
  | dead p hp _ _ hrest => exact hkeep (by rw [hrest m (hne hp)]) (by rw [hrest m (hne hp)])
  | started c np _ hnew heq =>
    have hmn := hne (not_live_of_embryo hnew.life)
    rw [heq]
    exact hkeep (by rw [Function.update_of_ne hmn]) (by rw [Function.update_of_ne hmn])
  | refused c m' np _ _ hnp _ hrest =>
    have hmn := hne (not_live_of_embryo hnp)
    exact hkeep (by rw [hrest m hmn]) (by rw [hrest m hmn])
  | created c m' np z _ _ hnp _ _ hrest =>
    have hmn := hne (not_live_of_embryo hnp)
    exact hkeep (by rw [hrest m hmn]) (by rw [hrest m hmn])
  | ended c m' hee hc hm' _ _ hrest =>
    have hmem := hother (.inl hee) hc hm'
    exact hkeep (by rw [hrest m hmem]) (by rw [hrest m hmem])
  | stopped c m' _ _ hm' hcm heq =>
    have hmc : m ≠ c := fun hmc => by
      subst hmc
      exact hcm (Option.some.inj (hm.2.symm.trans hm'.2))
    rw [heq]
    exact hkeep (by rw [Function.update_of_ne hmc]) (by rw [Function.update_of_ne hmc])
  | committed c d sz _ _ heq =>
    rw [heq]
    by_cases hmc : m = c
    · subst hmc
      exact hkeep (by rw [Function.update_self]) (by rw [Function.update_self])
    · exact hkeep (by rw [Function.update_of_ne hmc]) (by rw [Function.update_of_ne hmc])
  | replaced c m' hee hc hm' _ _ hrest =>
    have hmem := hother (.inr hee) hc hm'
    exact hkeep (by rw [hrest m hmem]) (by rw [hrest m hmem])
  | reaped c m' p _ _ hz _ _ heq =>
    have hmp : m ≠ p := fun hmp => by rw [← hmp, hm.1] at hz; cases hz
    rw [heq]
    exact hkeep (by rw [Function.update_of_ne hmp]) (by rw [Function.update_of_ne hmp])
  | joined c m' p _ _ _ _ _ hz _ _ heq =>
    have hmp : m ≠ p := fun hmp => by rw [← hmp, hm.1] at hz; cases hz
    rw [heq]
    by_cases hmm : m = m'
    · subst hmm
      exact hkeep (by rw [Function.update_of_ne hmp, Function.update_self])
        (by rw [Function.update_of_ne hmp, Function.update_self])
    · exact hkeep (by rw [Function.update_of_ne hmp, Function.update_of_ne hmm])
        (by rw [Function.update_of_ne hmp, Function.update_of_ne hmm])

/-- Only a `growproc` of its own threads changes the size of the process. -/
theorem KernelInv.stays_size (h : KernelInv D W k) (hm : Runs k.view m m) (he : KeepsGroups k e)
    (honly : OnlySbrk m k e) (hs : Thread.step k e = .ok k')
    (hgrow : ∀ ok, e = .growproc ok → ∀ c ∈ k.cpuProc, (k.proc c).mainThread ≠ some m) :
    (k'.proc m).sz = (k.proc m).sz := by
  have hlive : Live k.view m := .inl hm.1
  have hset : ∀ {p : Slot} {w : Kept}, k'.kept = Function.update k.kept p w →
      w.sz = (k.proc p).sz → (k'.proc m).sz = (k.proc m).sz := fun {p} _ heq hw => by
    rw [sz_of_update heq m]
    split
    · rename_i hmp
      rw [hmp, hw]
    · rfl
  -- the slots of another process do not belong to `m`
  have hmem : ∀ {m' : Slot}, m' ≠ m → ¬ Member k.view m' m := fun hne hmem =>
    hne (Option.some.inj (hmem.2.symm.trans hm.2))
  have hcreate : ∀ {c m' np : Slot}, k.cpuProc = some c → k.call c = .create m' np →
      (∀ ok, e = .createFinish ok → m' ≠ m) ∧ np ≠ m := fun {c _ _} hc hcall => by
    have hok := h.inv.calls c
    rw [hcall] at hok
    refine ⟨fun ok hee hmm => ?_, h.inv.new_ne (by rw [hcall]; rfl) hlive⟩
    subst hee
    cases (honly c hc (hmm ▸ hok.2)).1
  cases h.step_kept he hs with
  | same heq => exact sz_of_kept (congrFun heq m)
  | allocated p _ heq => exact hset heq rfl
  | forked c m' np _ hcall _ heq =>
    have hnm : np ≠ m := h.inv.new_ne (by rw [hcall]; rfl) hlive
    rw [sz_of_update heq m, if_neg hnm.symm]
  | created c m' np ok hee hc hcall _ _ hS =>
    obtain ⟨hmm, hnm⟩ := hcreate hc hcall
    rcases hS.sz m with ⟨hq | hq, _⟩ | ⟨_, hq⟩
    · exact absurd hq (hmem (hmm ok hee))
    · exact absurd hq.symm hnm
    · exact hq
  | leaked c m' np ok hee hc hcall _ hS =>
    obtain ⟨hmm, hnm⟩ := hcreate hc hcall
    rcases hS.sz m with ⟨hq | hq, _⟩ | ⟨_, hq⟩
    · exact absurd hq.symm (hmm ok hee)
    · exact absurd hq.symm hnm
    · exact hq
  | stopped c r _ _ _ heq => exact hset heq rfl
  | joined c m' p _ _ _ _ _ _ heq => exact hset heq rfl
  | committed c d sz hee hc _ heq =>
    have hmc : m ≠ c := fun hmc => by
      subst hmc hee
      cases (honly m hc hm.2).1
    rw [sz_of_update heq m, if_neg hmc]
  | replaced c _ _ heq => exact hset heq rfl
  | grown c m' addr n ok sz hee hc _ hm' _ hS =>
    have hmm : m' ≠ m := fun hmm => hgrow ok hee c hc (hmm ▸ hm')
    rcases hS.sz m with ⟨hq, _⟩ | ⟨_, hq⟩
    · exact absurd hq (hmem hmm)
    · exact hq
  | limited p m' pid limit _ _ _ _ _ heq => exact hset heq rfl
  | scheduled p m' cur t _ _ _ _ heq => exact hset heq rfl

/-! ### What is handed out -/

/-- The ranges are disjoint, lie between `s₀` and `sz`, and fill the space between them. -/
structure Tiles (s₀ sz : Nat) (l : List Grant) : Prop where
  disjoint : l.Pairwise fun g g' => Disjoint g.range g'.range
  above : ∀ g ∈ l, (s₀ : Int) ≤ g.addr
  below : ∀ g ∈ l, g.addr + g.n ≤ sz
  sum : (sz : Int) = s₀ + (l.map Grant.n).sum
  pos : ∀ g ∈ l, 0 < g.n

theorem Tiles.nil (s₀ : Nat) : Tiles s₀ s₀ [] :=
  ⟨.nil, by simp, by simp, by simp, by simp⟩

/-- Memory that begins at the old size. -/
theorem Tiles.append {s₀ sz sz' : Nat} {l : List Grant} {n : Int} (h : Tiles s₀ sz l)
    (hsz : (sz' : Int) = sz + n) (hn : 0 < n) : Tiles s₀ sz' (l ++ [⟨sz, n⟩]) := by
  have hle : (s₀ : Int) ≤ sz := by
    have hsum : 0 ≤ (l.map Grant.n).sum :=
      List.sum_nonneg fun x hx => by
        obtain ⟨g, hg, rfl⟩ := List.mem_map.mp hx
        exact (h.pos g hg).le
    have := h.sum
    omega
  refine ⟨List.pairwise_append.mpr ⟨h.disjoint, List.pairwise_singleton .., fun g hg g' hg' => ?_⟩,
    fun g hg => ?_, fun g hg => ?_, ?_, fun g hg => ?_⟩
  · rw [List.mem_singleton] at hg'
    subst hg'
    have hbelow := h.below g hg
    rw [Grant.range, Grant.range, Set.Ico_disjoint_Ico]
    exact le_trans (min_le_left ..) (le_trans hbelow (le_max_right ..))
  · rcases List.mem_append.mp hg with hg | hg
    · exact h.above g hg
    · rw [List.mem_singleton] at hg
      subst hg
      exact hle
  · rcases List.mem_append.mp hg with hg | hg
    · have := h.below g hg
      omega
    · rw [List.mem_singleton] at hg
      subst hg
      show (sz : Int) + n ≤ sz'
      omega
  · have := h.sum
    rw [List.map_append, List.sum_append]
    simp only [List.map_cons, List.map_nil, List.sum_cons, List.sum_nil]
    omega
  · rcases List.mem_append.mp hg with hg | hg
    · exact h.pos g hg
    · rw [List.mem_singleton] at hg
      subst hg
      exact hn

/-! ### Runs -/

/-- The invariant of a run in which the threads of `m` grow their process, which began with the
    size `s₀`. -/
structure SbrkInv (m : Slot) (s₀ : Nat) (s : SbrkRun) : Prop where
  tiles : Tiles s₀ (s.kernel.proc m).sz s.grants
  alive : s.kernel.ptableLocked = false →
    KernelInv False False s.kernel ∧ SizesOk s.kernel ∧ Runs s.kernel.view m m

/-- Nothing is handed out, except by a `growproc` of a thread of the process. -/
theorem handsOut_other (hgrow : ∀ ok, e = .growproc ok → ∀ c ∈ k.cpuProc,
    (k.proc c).mainThread ≠ some m) : handsOut m k e k' = [] := by
  unfold handsOut
  split
  · rename_i ok c hc
    split
    · rw [if_neg fun hh => hgrow ok rfl c hc hh.1]
    · rfl
  · rfl

/-- A `growproc` of a thread of the process hands out the memory behind the size that the thread
    has read, or fails. -/
theorem KernelInv.growproc_handsOut (h : KernelInv D W k) (hsz : SizesOk k)
    (hc : k.cpuProc = some c) (hm : (k.proc c).mainThread = some m) {ok : Bool}
    (honly : OnlySbrk m k (.growproc ok)) (hread : SizeAsRead m k (.growproc ok))
    (hs : Thread.step k (.growproc ok) = .ok k') :
    (k'.proc m).sz = (k.proc m).sz ∧ handsOut m k (.growproc ok) k' = [] ∨
    ∃ n, 0 < n ∧ ((k'.proc m).sz : Int) = (k.proc m).sz + n ∧
      handsOut m k (.growproc ok) k' = [⟨(k.proc m).sz, n⟩] := by
  rw [Thread.step] at hs
  split at hs
  · cases hs
  obtain ⟨c', hc', hs⟩ := byProc_ok hs
  cases hc.symm.trans hc'
  split at hs
  · rename_i addr n hcall
    have hmem := (h.inv.leader_of_active (h.cpu c hc) hm).2.1
    rcases h.kept_sbrkGrow hc hs with ⟨heq, hret⟩ | ⟨m', sz, hm', hnew, hset, hret⟩
    · refine .inl ⟨sz_of_kept (congrFun heq m), ?_⟩
      simp [handsOut, hc, hcall, hret]
    · cases hm.symm.trans hm'
      have hargs : (addr, n) ∈ (k.call c).sbrkArgs := by rw [hcall]; rfl
      have hpos : 0 < n := (honly c hc hm).2 ok rfl (addr, n) hargs
      have haddr : addr = (k.proc m).sz :=
        hread c hc hm ok rfl (addr, n) hargs (by rw [hnew]; simp)
      refine .inr ⟨n, hpos, ?_, ?_⟩
      · rw [show (k'.proc m).sz = sz from congrArg Kept.sz ((hset m).1 hmem)]
        exact newSize_pos hnew (hsz.sz m) hpos (hsz.arg c addr n hcall)
      · simp [handsOut, hc, hcall, hm, hret, haddr]
  · cases hs

/-- One step of the run. -/
theorem SbrkInv.step {s₀ : Nat} {s t : SbrkRun} (h : SbrkInv m s₀ s) {e : Step}
    (he : GrowsAlone m s e) (hs : sbrkStep m s e = .ok t) : SbrkInv m s₀ t := by
  obtain ⟨k', hk', hs⟩ := bind_eq_ok.mp hs
  cases hs
  obtain ⟨⟨hkeep, honly⟩, hread⟩ := he
  obtain ⟨hinv, hsz, hm⟩ := h.alive (free_of_step hk')
  refine ⟨?_, fun hfree => ⟨hinv.step hkeep (fun hD => hD.elim) (fun hW => hW.elim) hk' hfree,
    hsz.step hinv hkeep hk', hinv.stays_main hm hkeep ?_ hk'⟩⟩
  · by_cases hgrow : ∃ ok c, e = .growproc ok ∧ s.kernel.cpuProc = some c ∧
        (s.kernel.proc c).mainThread = some m
    · obtain ⟨ok, c, rfl, hc, hcm⟩ := hgrow
      rcases hinv.growproc_handsOut hsz hc hcm honly hread hk' with ⟨hsame, hnil⟩ | ⟨n, hn, hadd, hone⟩
      · show Tiles s₀ (k'.proc m).sz (s.grants ++ handsOut m s.kernel _ k')
        rw [hsame, hnil, List.append_nil]
        exact h.tiles
      · show Tiles s₀ (k'.proc m).sz (s.grants ++ handsOut m s.kernel _ k')
        rw [hone]
        exact h.tiles.append hadd hn
    · have hgrow' : ∀ ok, e = .growproc ok → ∀ c ∈ s.kernel.cpuProc,
          (s.kernel.proc c).mainThread ≠ some m := fun ok hee c hc hcm =>
        hgrow ⟨ok, c, hee, hc, hcm⟩
      show Tiles s₀ (k'.proc m).sz (s.grants ++ handsOut m s.kernel e k')
      rw [hinv.stays_size hm hkeep honly hk' hgrow', handsOut_other hgrow', List.append_nil]
      exact h.tiles
  · rintro (rfl | rfl) c hc hcm
    · cases (honly c hc hcm).1
    · cases (honly c hc hcm).1

theorem IsProcess.runs (h : IsProcess k m) : Runs k.view m m := by
  refine ⟨?_, h.1⟩
  rcases h.2 with hs | hs | hs <;> simp [Kernel.view, Proc.view, hs, ProcState.life]

/-- In every run in which the threads of a process grow it, and a `growproc` that succeeds finds
    the size that its thread has read, the memory that they are given is disjoint, lies between
    the old size and the new one, and adds up to the difference. -/
theorem sbrk_disjoint (h : Reachable Init (Steps step KeepsGroups) k)
    (hfree : k.ptableLocked = false) (hm : IsProcess k m) {s : SbrkRun}
    (hs : Reachable (fun s => s = ⟨k, []⟩) (Steps (sbrkStep m) (GrowsAlone m)) s) :
    (s.grants.Pairwise fun g g' => Disjoint g.range g'.range) ∧
    (∀ g ∈ s.grants, ((k.proc m).sz : Int) ≤ g.addr ∧ g.addr + g.n ≤ (s.kernel.proc m).sz) ∧
    ((s.kernel.proc m).sz : Int) = (k.proc m).sz + (s.grants.map Grant.n).sum := by
  have hinv : SbrkInv m (k.proc m).sz s := by
    refine hs.invariant (fun s hs₀ => ?_) fun s t hI hst => ?_
    · subst hs₀
      refine ⟨.nil _, fun _ => ⟨?_, .of_reachable h, hm.runs⟩⟩
      exact .of_reachable (fun _ _ he => he) (fun hD => hD.elim) (fun hW => hW.elim) h hfree
    · obtain ⟨e, he, hst⟩ := hst
      exact hI.step he hst
  exact ⟨hinv.tiles.disjoint, fun g hg => ⟨hinv.tiles.above g hg, hinv.tiles.below g hg⟩,
    hinv.tiles.sum⟩

/-- Two threads call `sbrk` one after the other. -/
theorem sbrk_disjoint_in_turn : ∃ (k : Kernel) (s : SbrkRun),
    s.grants = [⟨12288, 100⟩, ⟨12388, 200⟩] ∧
    (s.grants.Pairwise fun g g' => Disjoint g.range g'.range) ∧
    ((s.kernel.proc 1).sz : Int) = (k.proc 1).sz + (s.grants.map Grant.n).sum := by
  obtain ⟨k₀, h₀⟩ : ∃ k, userinit boot 7 = .ok k := ⟨_, rfl⟩
  have hstart : Reachable Init (Steps step KeepsGroups) k₀ := .start ⟨7, h₀⟩
  obtain ⟨k, hk, hp⟩ := reachable_of_reachTest step KeepsGroups
    (fun k => decide (k.ptableLocked = false ∧ IsProcess k 1) &&
      reachTest (sbrkStep 1) (GrowsAlone 1)
        (fun s => decide (s.grants = [⟨12288, 100⟩, ⟨12388, 200⟩])) ⟨k, []⟩
        [.sbrk 100, .growproc true, .yield, .schedule, .sbrk 200, .growproc true])
    twoThreads hstart (by cases h₀; decide +kernel)
  rw [Bool.and_eq_true, decide_eq_true_eq] at hp
  obtain ⟨⟨hfree, hm⟩, hrun⟩ := hp
  have hbegin : Reachable (fun s => s = ⟨k, []⟩) (Steps (sbrkStep 1) (GrowsAlone 1)) ⟨k, []⟩ := .start rfl
  obtain ⟨s, hs, hg⟩ := reachable_of_reachTest _ _ _ _ hbegin hrun
  have hall := sbrk_disjoint hk hfree hm hs
  exact ⟨k, s, of_decide_eq_true hg, hall.1, hall.2.2⟩

/-- Two threads read the size before one of them grows the process, and are given the same
    memory. -/
theorem sbrk_overlaps : ∃ (k : Kernel) (s : SbrkRun),
    Reachable Init (Steps step KeepsGroups) k ∧ k.ptableLocked = false ∧ IsProcess k 1 ∧
    Reachable (fun s => s = ⟨k, []⟩) (Steps (sbrkStep 1) (Grows 1)) s ∧
    ¬ s.grants.Pairwise fun g g' => Disjoint g.range g'.range := by
  obtain ⟨k₀, h₀⟩ : ∃ k, userinit boot 7 = .ok k := ⟨_, rfl⟩
  have hstart : Reachable Init (Steps step KeepsGroups) k₀ := .start ⟨7, h₀⟩
  obtain ⟨k, hk, hp⟩ := reachable_of_reachTest step KeepsGroups
    (fun k => decide (k.ptableLocked = false ∧ IsProcess k 1) &&
      reachTest (sbrkStep 1) (Grows 1)
        (fun s => decide (s.grants = [⟨12288, 200⟩, ⟨12288, 100⟩])) ⟨k, []⟩
        [.sbrk 100, .yield, .schedule, .sbrk 200, .growproc true, .yield, .schedule, .schedule,
          .growproc true])
    twoThreads hstart (by cases h₀; decide +kernel)
  rw [Bool.and_eq_true, decide_eq_true_eq] at hp
  obtain ⟨⟨hfree, hm⟩, hrun⟩ := hp
  have hbegin : Reachable (fun s => s = ⟨k, []⟩) (Steps (sbrkStep 1) (Grows 1)) ⟨k, []⟩ := .start rfl
  obtain ⟨s, hs, hg⟩ := reachable_of_reachTest _ _ _ _ hbegin hrun
  refine ⟨k, s, hk, hfree, hm, hs, ?_⟩
  rw [of_decide_eq_true hg]
  simp only [List.pairwise_cons, List.mem_singleton, forall_eq, Grant.range]
  rintro ⟨hd, _⟩
  have hmem : (12288 : Int) ∈ Set.Ico (12288 : Int) (12288 + 200) := by simp
  exact Set.disjoint_left.mp hd hmem (by simp)

end Xv6.Thread
