import Xv6.Thread.Kernel
import Xv6.Lib.Transition

namespace Xv6.Thread

open Xv6.Lib

/-!
# Threads — groups of threads and their page directories
-/

/-- The part of a process state that matters to the threads of other processes. -/
inductive Life
  | unused | embryo | active | zombie
  deriving DecidableEq, Repr

/-- `SLEEPING`, `RUNNABLE` and `RUNNING` processes are active. -/
def ProcState.life : ProcState → Life
  | .UNUSED => .unused
  | .EMBRYO => .embryo
  | .ZOMBIE => .zombie
  | _ => .active

/-- The fields of a slot that hold a process together. -/
structure View where
  life : Life
  main : Option Slot
  next : Option Slot
  pid : Int
  tid : Nat
  createNum : Nat
  pgdir : Option Nat
  join : Option Slot

/-- The view of a slot. -/
def Proc.view (q : Proc) : View where
  life := q.state.life
  main := q.mainThread
  next := q.nextThread
  pid := q.pid
  tid := q.tid
  createNum := q.createNum
  pgdir := q.pgdir
  join := q.joinThread

/-- The view of the table. -/
def Kernel.view (k : Kernel) (i : Slot) : View := (k.proc i).view

/-! ### Groups -/

section Group

variable (D : Prop) (v : Slot → View) (call : Slot → Call)

/-- The slot holds a thread that has run. -/
def Live (q : Slot) : Prop := (v q).life = .active ∨ (v q).life = .zombie

/-- A thread of the process of `m`. -/
def Member (m q : Slot) : Prop := Live v q ∧ (v q).main = some m

/-- The main thread of a process that has not been released. -/
def Leader (m : Slot) : Prop := Member v m m

/-- The last thread of a process whose main thread `m` was released by `exit`.  That they have
    the same directory is known under `D`. -/
structure Orphan (m q : Slot) : Prop where
  main : (v m).life = .unused
  self : (v q).life = .zombie
  pgdir : D → (v m).pgdir = (v q).pgdir
  alone : ∀ q', Member v m q' → q' = q

/-- The page directory belongs to the process of `m`: a thread uses it, or will free it at the
    end of `exec`, or `m` is a child that `fork` is about to start. -/
def Owns (m : Slot) (d : Nat) : Prop :=
  (∃ q, Member v m q ∧ ((v q).pgdir = some d ∨ call q = .exec (some d))) ∨
    ∃ c, call c = .forkCopied m ∧ (v m).pgdir = some d

/-- The slot that a call has allocated. -/
def Call.newSlot : Call → Option Slot
  | .fork np => some np
  | .forkCopied np => some np
  | .create _ np => some np
  | _ => none

/-- What is known about a slot. -/
structure SlotOk (q : Slot) : Prop where
  main : Live v q → ∃ m, (v q).main = some m
  pgdir : Live v q → ∃ d, (v q).pgdir = some d

/-- What is known about the threads of `m`.  While the main thread is active, they are linked
    behind it; once it is a zombie it is the last one. -/
structure GroupOk (m : Slot) : Prop where
  kind : ∀ q, Member v m q → Leader v m ∨ Orphan D v m q
  list : Leader v m → (v m).life = .active →
    ∃ xs, Chain (fun i => (v i).next) (some m) xs ∧ ∀ q, q ∈ xs ↔ Member v m q
  pid : Leader v m → ∀ q, Member v m q → (v q).pid = (v m).pid
  tidLe : Leader v m → ∀ q, Member v m q → (v q).tid ≤ (v m).createNum
  tidInj : Leader v m → ∀ q q', Member v m q → Member v m q' → (v q).tid = (v q').tid → q = q'
  ended : Leader v m → (v m).life = .zombie → ∀ q, Member v m q → q = m

/-- The slot that `fork` has allocated. -/
structure NewProc (np : Slot) : Prop where
  life : (v np).life = .embryo
  main : (v np).main = some np
  tid : (v np).tid = 0
  next : (v np).next = none

/-- What is known about a process inside a call. -/
def CallOk (c : Slot) : Call → Prop
  | .fork np => NewProc v np
  | .forkCopied np => NewProc v np ∧ ∃ d, (v np).pgdir = some d
  | .create m np => (v np).life = .embryo ∧ (v c).main = some m
  | .join m p => (v c).main = some m ∧ Member v m p ∧ p ≠ m ∧ (v p).join = some c
  | .exec old => D → (v c).pgdir ≠ old
  | .threadExit _ => (v c).main ≠ some c
  | _ => True

/-- The invariant of the process table. -/
structure Inv (dirs : List Nat) : Prop where
  slots : ∀ q, SlotOk v q
  groups : ∀ m, GroupOk D v m
  owner : D → ∃ o : Nat → Slot, ∀ m d, Owns v call m d → d ∈ dirs ∧ o d = m
  inCall : ∀ c, call c ≠ .user → (v c).life = .active
  calls : ∀ c, CallOk D v c (call c)
  news : ∀ c c' np, (call c).newSlot = some np → (call c').newSlot = some np → c = c'

end Group

variable {D : Prop} {v v' : Slot → View} {call call' : Slot → Call} {dirs dirs' : List Nat}
  {c m np p q : Slot}

/-! ### Frames -/

theorem not_live_of_embryo (h : (v q).life = .embryo) : ¬ Live v q := by simp [Live, h]

theorem not_live_of_unused (h : (v q).life = .unused) : ¬ Live v q := by simp [Live, h]

/-- A slot that is not a main thread has no group. -/
theorem Inv.no_members (h : Inv D v call dirs) (hlife : (v p).life ≠ .unused)
    (hmain : (v p).main ≠ some p ∨ (v p).life = .embryo) : ¬ Member v p q := by
  intro hq
  rcases (h.groups p).kind q hq with hl | ho
  · rcases hmain with hmain | hemb
    · exact hmain hl.2
    · exact not_live_of_embryo hemb hl.1
  · exact hlife ho.main

/-- A process that is active has a main thread that is active. -/
theorem Inv.leader_of_active (h : Inv D v call dirs) (hc : (v c).life = .active)
    (hm : (v c).main = some m) : Member v m c ∧ Leader v m ∧ (v m).life = .active := by
  have hmem : Member v m c := ⟨.inl hc, hm⟩
  have hl : Leader v m := by
    rcases (h.groups m).kind c hmem with hl | ho
    · exact hl
    · have := ho.self; rw [hc] at this; cases this
  refine ⟨hmem, hl, ?_⟩
  rcases hl.1 with hact | hz
  · exact hact
  · rw [← (h.groups m).ended hl hz c hmem, hc]

theorem GroupOk.of_empty (h : ∀ q, ¬ Member v m q) : GroupOk D v m :=
  ⟨fun q hq => absurd hq (h q), fun hl => absurd hl (h m), fun hl => absurd hl (h m),
    fun hl => absurd hl (h m), fun hl => absurd hl (h m), fun hl => absurd hl (h m)⟩

/-- The group of a process with one thread. -/
theorem GroupOk.of_single (honly : ∀ q, Member v m q ↔ q = m)
    (hnext : (v m).life = .active → (v m).next = none) (htid : (v m).tid ≤ (v m).createNum) :
    GroupOk D v m := by
  have hl : Leader v m := (honly m).mpr rfl
  refine ⟨fun q _ => .inl hl, fun _ hact => ⟨[m], ?_, fun q => ?_⟩, fun _ q hq => ?_,
    fun _ q hq => ?_, fun _ q q' hq hq' _ => ?_, fun _ _ q hq => (honly q).mp hq⟩
  · rw [chain_some_iff]
    refine ⟨[], rfl, ?_⟩
    show Chain _ (v m).next []
    rw [hnext hact]
    simp
  · rw [honly, List.mem_singleton]
  · rw [(honly q).mp hq]
  · rw [(honly q).mp hq]
    exact htid
  · rw [(honly q).mp hq, (honly q').mp hq']

/-- A group none of whose threads has changed. -/
theorem GroupOk.frame (h : GroupOk D v m) (hmem : ∀ q, Member v' m q ↔ Member v m q)
    (heq : ∀ q, Member v m q → v' q = v q) (hm : (∃ q, Member v m q) → v' m = v m) :
    GroupOk D v' m := by
  have hl : Leader v' m ↔ Leader v m := hmem m
  refine ⟨fun q hq => ?_, fun hl' hact => ?_, fun hl' q hq => ?_, fun hl' q hq => ?_,
    fun hl' q q' hq hq' => ?_, fun hl' hz q hq => ?_⟩
  · rw [hmem] at hq
    rcases h.kind q hq with hk | ho
    · exact .inl (hl.mpr hk)
    · refine .inr ⟨?_, ?_, ?_, fun q' hq' => ho.alone q' ((hmem q').mp hq')⟩
      · rw [hm ⟨q, hq⟩]; exact ho.main
      · rw [heq q hq]; exact ho.self
      · intro hD
        rw [hm ⟨q, hq⟩, heq q hq]
        exact ho.pgdir hD
  · rw [hl] at hl'
    rw [hm ⟨m, hl'⟩] at hact
    obtain ⟨xs, hxs, hx⟩ := h.list hl' hact
    refine ⟨xs, hxs.congr fun a ha => ?_, fun q => (hx q).trans (hmem q).symm⟩
    show (v' a).next = (v a).next
    rw [heq a ((hx a).mp ha)]
  · rw [hl] at hl'
    rw [hmem] at hq
    rw [heq q hq, hm ⟨q, hq⟩]
    exact h.pid hl' q hq
  · rw [hl] at hl'
    rw [hmem] at hq
    rw [heq q hq, hm ⟨q, hq⟩]
    exact h.tidLe hl' q hq
  · rw [hl] at hl'
    rw [hmem] at hq hq'
    rw [heq q hq, heq q' hq']
    exact h.tidInj hl' q q' hq hq'
  · rw [hl] at hl'
    rw [hmem] at hq
    rw [hm ⟨q, hq⟩] at hz
    exact h.ended hl' hz q hq

theorem SlotOk.congr (h : SlotOk v q) (heq : v' q = v q) : SlotOk v' q := by
  refine ⟨fun hq => ?_, fun hq => ?_⟩
  · rw [Live, heq] at hq; rw [heq]; exact h.main hq
  · rw [Live, heq] at hq; rw [heq]; exact h.pgdir hq

theorem SlotOk.of_dead (h : ¬ Live v q) : SlotOk v q := ⟨fun hq => absurd hq h, fun hq => absurd hq h⟩

theorem SlotOk.of_unused (h : (v q).life = .unused) : SlotOk v q :=
  .of_dead (not_live_of_unused h)

theorem NewProc.congr (h : NewProc v q) (heq : v' q = v q) : NewProc v' q :=
  ⟨by rw [heq]; exact h.life, by rw [heq]; exact h.main, by rw [heq]; exact h.tid,
    by rw [heq]; exact h.next⟩

theorem join_of_eq (heq : v' p = v p) :
    (Member v m p → Member v' m p) ∧ (v' p).join = (v p).join :=
  ⟨fun h => by rw [Member, Live, heq]; exact h, by rw [heq]⟩

/-- A call of a process that, like the slots it refers to, has not changed. -/
theorem CallOk.frame {x : Call} (h : CallOk D v c x)
    (hnew : ∀ np, x.newSlot = some np → v' np = v np) (hmain : (v' c).main = (v c).main)
    (hpgdir : (v' c).pgdir = (v c).pgdir)
    (hjoin : ∀ m p, x = .join m p → (Member v m p → Member v' m p) ∧ (v' p).join = (v p).join) :
    CallOk D v' c x := by
  cases x with
  | user => exact h
  | wait => exact h
  | exec old => rw [CallOk, hpgdir]; exact h
  | sbrk addr n => exact h
  | exit => exact h
  | threadExit retval => rw [CallOk, hmain]; exact h
  | fork np => exact NewProc.congr h (hnew np rfl)
  | forkCopied np => rw [CallOk, hnew np rfl]; exact ⟨h.1.congr (hnew np rfl), h.2⟩
  | create m np => rw [CallOk, hnew np rfl, hmain]; exact h
  | join m p =>
    obtain ⟨hmem, hj⟩ := hjoin m p rfl
    exact ⟨by rw [hmain]; exact h.1, hmem h.2.1, h.2.2.1, by rw [hj]; exact h.2.2.2⟩

/-- A step after which every process is in user mode or still where it was in its call, and every
    directory belongs to the process it belonged to. -/
theorem Inv.shrink (h : Inv D v call dirs) (hslots : ∀ q, SlotOk v' q) (hgroups : ∀ m, GroupOk D v' m)
    (howns : D → ∀ m d, Owns v' call' m d → d ∈ dirs' ∧ Owns v call m d)
    (hcalls : ∀ c, call' c = .user ∨
      (call' c = call c ∧ (v' c).life = .active ∧ CallOk D v' c (call c))) :
    Inv D v' call' dirs' := by
  have hnew : ∀ c np, (call' c).newSlot = some np → (call c).newSlot = some np := by
    intro c np hnp
    rcases hcalls c with hc | hc
    · rw [hc] at hnp; cases hnp
    · rwa [hc.1] at hnp
  refine ⟨hslots, hgroups, ?_, fun c hc => ?_, fun c => ?_, fun c c' np h₁ h₂ =>
    h.news c c' np (hnew c np h₁) (hnew c' np h₂)⟩
  · intro hD
    obtain ⟨o, ho⟩ := h.owner hD
    exact ⟨o, fun m d hd => ⟨(howns hD m d hd).1, (ho m d (howns hD m d hd).2).2⟩⟩
  · rcases hcalls c with hc' | hc'
    · exact absurd hc' hc
    · exact hc'.2.1
  · rcases hcalls c with hc' | hc'
    · rw [hc']; trivial
    · rw [hc'.1]; exact hc'.2.2

/-- The slots that calls have allocated are not threads. -/
theorem Inv.new_embryo (h : Inv D v call dirs) (hnp : (call c).newSlot = some np) :
    (v np).life = .embryo := by
  have hc := h.calls c
  cases hcall : call c with
  | user => rw [hcall] at hnp; cases hnp
  | wait => rw [hcall] at hnp; cases hnp
  | exec old => rw [hcall] at hnp; cases hnp
  | sbrk addr n => rw [hcall] at hnp; cases hnp
  | exit => rw [hcall] at hnp; cases hnp
  | threadExit retval => rw [hcall] at hnp; cases hnp
  | join m p => rw [hcall] at hnp; cases hnp
  | fork np' => rw [hcall] at hnp hc; cases hnp; exact hc.life
  | forkCopied np' => rw [hcall] at hnp hc; cases hnp; exact hc.1.life
  | create m np' => rw [hcall] at hnp hc; cases hnp; exact hc.1

theorem Inv.new_ne (h : Inv D v call dirs) (hnp : (call c).newSlot = some np) (hq : Live v q) :
    np ≠ q := fun hnq => not_live_of_embryo (h.new_embryo hnp) (hnq ▸ hq)

/-- A thread that is joined is a thread of the joining process. -/
theorem Inv.join_member (h : Inv D v call dirs) (hc : call c = .join m p) :
    (v c).main = some m ∧ Member v m p ∧ p ≠ m ∧ (v p).join = some c := by
  have := h.calls c
  rwa [hc] at this

/-! ### Calls that change no thread -/

/-- A process returns from a call. -/
theorem Inv.toUser (h : Inv D v call dirs) (c : Slot) :
    Inv D v (Function.update call c .user) dirs := by
  have hcall : ∀ c' x, x ≠ Call.user → Function.update call c .user c' = x → call c' = x := by
    intro c' x hx hc'
    by_cases hcc : c' = c
    · subst hcc; rw [Function.update_self] at hc'; exact absurd hc'.symm hx
    · rwa [Function.update_of_ne hcc] at hc'
  refine h.shrink h.slots h.groups (fun hD m d hd => ?_) fun c' => ?_
  · have hd' : Owns v call m d := by
      rcases hd with ⟨q, hq, hd⟩ | ⟨c', hc', hd⟩
      · exact .inl ⟨q, hq, hd.imp_right fun hd => hcall q _ (by simp) hd⟩
      · exact .inr ⟨c', hcall c' _ (by simp) hc', hd⟩
    obtain ⟨o, ho⟩ := h.owner hD
    exact ⟨(ho m d hd').1, hd'⟩
  · by_cases hcc : call c' = .user
    · by_cases hc : c' = c
      · subst hc; exact .inl (Function.update_self ..)
      · rw [Function.update_of_ne hc]; exact .inl hcc
    · by_cases hc : c' = c
      · subst hc; exact .inl (Function.update_self ..)
      · exact .inr ⟨Function.update_of_ne hc .., h.inCall c' hcc, h.calls c'⟩

/-- A process enters a call that owns no directory. -/
theorem Inv.enter (h : Inv D v call dirs) {x : Call} (hu : call c = .user)
    (hact : (v c).life = .active) (hok : CallOk D v c x) (hexec : ∀ old, x ≠ .exec old)
    (hfork : ∀ np, x ≠ .forkCopied np)
    (hnew : ∀ c' np, x.newSlot = some np → (call c').newSlot ≠ some np) :
    Inv D v (Function.update call c x) dirs := by
  refine ⟨h.slots, h.groups, ?_, fun c' hc' => ?_, fun c' => ?_, fun c₁ c₂ np h₁ h₂ => ?_⟩
  · intro hD
    obtain ⟨o, ho⟩ := h.owner hD
    refine ⟨o, fun m d hd => ho m d ?_⟩
    rcases hd with ⟨q, hq, hd⟩ | ⟨c', hc', hd⟩
    · refine .inl ⟨q, hq, hd.imp_right fun hd => ?_⟩
      by_cases hqc : q = c
      · subst hqc; rw [Function.update_self] at hd; exact absurd hd (hexec _)
      · rwa [Function.update_of_ne hqc] at hd
    · refine .inr ⟨c', ?_, hd⟩
      by_cases hcc : c' = c
      · subst hcc; rw [Function.update_self] at hc'; exact absurd hc' (hfork _)
      · rwa [Function.update_of_ne hcc] at hc'
  · by_cases hcc : c' = c
    · subst hcc; exact hact
    · rw [Function.update_of_ne hcc] at hc'; exact h.inCall c' hc'
  · by_cases hcc : c' = c
    · subst hcc; rw [Function.update_self]; exact hok
    · rw [Function.update_of_ne hcc]; exact h.calls c'
  · by_cases hc₁ : c₁ = c
    · subst hc₁
      by_cases hc₂ : c₂ = c₁
      · exact hc₂.symm
      · rw [Function.update_self] at h₁
        rw [Function.update_of_ne hc₂] at h₂
        exact absurd h₂ (hnew c₂ np h₁)
    · rw [Function.update_of_ne hc₁] at h₁
      by_cases hc₂ : c₂ = c
      · subst hc₂
        rw [Function.update_self] at h₂
        exact absurd h₁ (hnew c₁ np h₂)
      · rw [Function.update_of_ne hc₂] at h₂
        exact h.news c₁ c₂ np h₁ h₂

/-! ### Slots that are no threads -/

/-- A change of a slot that is not a thread, and not the main thread of one. -/
theorem Inv.setDead (h : Inv D v call dirs) {w : View}
    (hp : ¬ Live v p) (hw : w.life = .unused ∨ w.life = .embryo)
    (hmain : ∀ q, Live v q → (v q).main ≠ some p)
    (hcall : ∀ c, (call c).newSlot ≠ some p) : Inv D (Function.update v p w) call dirs := by
  have heq : ∀ q, q ≠ p → Function.update v p w q = v q := fun q hq => Function.update_of_ne hq ..
  have hself : Function.update v p w p = w := Function.update_self ..
  have hlive : ∀ q, Live (Function.update v p w) q ↔ Live v q := by
    intro q
    by_cases hq : q = p
    · subst hq
      refine iff_of_false ?_ hp
      rcases hw with hw | hw
      · exact not_live_of_unused (by rw [hself, hw])
      · exact not_live_of_embryo (by rw [hself, hw])
    · rw [Live, Live, heq q hq]
  have hne : ∀ q, Live v q → q ≠ p := fun q hq hqp => hp (hqp ▸ hq)
  have hmem : ∀ m q, Member (Function.update v p w) m q ↔ Member v m q := by
    intro m q
    rw [Member, Member, hlive]
    refine and_congr_right fun hq => ?_
    rw [heq q (hne q hq)]
  have hlabel : ∀ q, ¬ Member v p q := fun q hq => hmain q hq.1 hq.2
  refine h.shrink (fun q => ?_) (fun m => ?_) (fun hD m d hd => ?_) fun c => ?_
  · by_cases hq : q = p
    · subst hq
      exact .of_dead fun hq => hp ((hlive q).mp hq)
    · exact (h.slots q).congr (heq q hq)
  · by_cases hm : m = p
    · subst hm
      exact GroupOk.of_empty fun q hq => hlabel q ((hmem _ q).mp hq)
    · exact (h.groups m).frame (hmem m) (fun q hq => heq q (hne q hq.1)) fun _ => heq m hm
  · have hd' : Owns v call m d := by
      rcases hd with ⟨q, hq, hd⟩ | ⟨c, hc, hd⟩
      · rw [hmem] at hq
        rw [heq q (hne q hq.1)] at hd
        exact .inl ⟨q, hq, hd⟩
      · have hmp : m ≠ p := fun hmp => hcall c (by rw [hc, hmp]; rfl)
        rw [heq m hmp] at hd
        exact .inr ⟨c, hc, hd⟩
    obtain ⟨o, ho⟩ := h.owner hD
    exact ⟨(ho m d hd').1, hd'⟩
  · by_cases hu : call c = .user
    · exact .inl hu
    · have hact := h.inCall c hu
      have hcp : c ≠ p := hne c (.inl hact)
      refine .inr ⟨rfl, by rw [heq c hcp]; exact hact, (h.calls c).frame (fun np hnp => ?_)
        (by rw [heq c hcp]) (by rw [heq c hcp]) fun m q hq => ?_⟩
      · exact heq np fun hnpp => hcall c (hnpp ▸ hnp)
      · exact join_of_eq (heq q (hne q (h.join_member hq).2.1.1))

/-- A slot that is unused, and that no process in use has as its main thread, is not referred
    to by a call. -/
theorem Inv.unused_not_new (h : Inv D v call dirs) (hp : (v p).life = .unused) (c : Slot) :
    (call c).newSlot ≠ some p := by
  intro hnew
  have := h.new_embryo hnew
  rw [hp] at this
  cases this

/-! ### `fork` -/

/-- `copyuvm` has given a new directory to the child. -/
theorem Inv.enterCopied (h : Inv D v call dirs) {d : Nat} (hu : call c = .user)
    (hact : (v c).life = .active) (hnp : NewProc v np) (hd : (v np).pgdir = some d) (hfresh : d ∉ dirs) (hnew : ∀ c, (call c).newSlot ≠ some np) :
    Inv D v (Function.update call c (.forkCopied np)) (d :: dirs) := by
  refine ⟨h.slots, h.groups, ?_, fun c' hc' => ?_, fun c' => ?_, fun c₁ c₂ np' h₁ h₂ => ?_⟩
  · intro hD
    obtain ⟨o, ho⟩ := h.owner hD
    refine ⟨Function.update o d np, fun m e he => ?_⟩
    have hcases : Owns v call m e ∨ (m = np ∧ e = d) := by
      rcases he with ⟨q, hq, he⟩ | ⟨c', hc', he⟩
      · refine .inl (.inl ⟨q, hq, he.imp_right fun he => ?_⟩)
        by_cases hqc : q = c
        · subst hqc; rw [Function.update_self] at he; cases he
        · rwa [Function.update_of_ne hqc] at he
      · by_cases hcc : c' = c
        · subst hcc
          rw [Function.update_self] at hc'
          cases hc'
          rw [hd] at he
          cases he
          exact .inr ⟨rfl, rfl⟩
        · rw [Function.update_of_ne hcc] at hc'
          exact .inl (.inr ⟨c', hc', he⟩)
    rcases hcases with hown | ⟨rfl, rfl⟩
    · obtain ⟨hin, hoe⟩ := ho m e hown
      have hne : e ≠ d := fun hed => hfresh (hed ▸ hin)
      exact ⟨List.mem_cons_of_mem _ hin, by rw [Function.update_of_ne hne, hoe]⟩
    · exact ⟨List.mem_cons_self, Function.update_self ..⟩
  · by_cases hcc : c' = c
    · subst hcc; exact hact
    · rw [Function.update_of_ne hcc] at hc'; exact h.inCall c' hc'
  · by_cases hcc : c' = c
    · subst hcc; rw [Function.update_self]; exact ⟨hnp, d, hd⟩
    · rw [Function.update_of_ne hcc]; exact h.calls c'
  · by_cases hc₁ : c₁ = c
    · subst hc₁
      rw [Function.update_self] at h₁
      cases h₁
      by_cases hc₂ : c₂ = c₁
      · exact hc₂.symm
      · rw [Function.update_of_ne hc₂] at h₂
        exact absurd h₂ (hnew c₂)
    · rw [Function.update_of_ne hc₁] at h₁
      by_cases hc₂ : c₂ = c
      · subst hc₂
        rw [Function.update_self] at h₂
        cases h₂
        exact absurd h₁ (hnew c₁)
      · rw [Function.update_of_ne hc₂] at h₂
        exact h.news c₁ c₂ np' h₁ h₂

/-- The child of `fork` starts as a process of its own. -/
theorem Inv.forkRun (h : Inv D v call dirs) (hc : call c = .forkCopied np) :
    Inv D (Function.update v np { v np with life := .active }) (Function.update call c .user)
      dirs := by
  have hok := h.calls c
  rw [hc] at hok
  obtain ⟨⟨hemb, hmain, htid, hnext⟩, d, hd⟩ := hok
  generalize hv' : Function.update v np { v np with life := .active } = v'
  have heq : ∀ q, q ≠ np → v' q = v q := fun q hq => by rw [← hv', Function.update_of_ne hq]
  have hself : v' np = { v np with life := .active } := by rw [← hv', Function.update_self]
  have hne : ∀ q, Live v q → q ≠ np := fun q hq hqn => not_live_of_embryo hemb (hqn ▸ hq)
  have hnone : ∀ q, ¬ Member v np q := fun q =>
    h.no_members (by rw [hemb]; simp) (.inr hemb)
  have hmem : ∀ m q, Member v' m q ↔ Member v m q ∨ (m = np ∧ q = np) := by
    intro m q
    by_cases hq : q = np
    · subst hq; simp [Member, Live, hself, hmain, hemb, eq_comm]
    · simp [Member, Live, heq q hq, hq]
  refine h.shrink (fun q => ?_) (fun m => ?_) (fun hD m e he => ?_) fun c' => ?_
  · by_cases hq : q = np
    · subst hq
      exact ⟨fun _ => ⟨q, by rw [hself]; exact hmain⟩, fun _ => ⟨d, by rw [hself]; exact hd⟩⟩
    · exact (h.slots q).congr (heq q hq)
  · by_cases hm : m = np
    · subst hm
      have honly : ∀ q, Member v' m q ↔ q = m := fun q => by
        rw [hmem]; simp [hnone q]
      refine GroupOk.of_single honly (fun _ => by rw [hself]; exact hnext) ?_
      rw [hself]
      show (v m).tid ≤ _
      rw [htid]
      exact Nat.zero_le _
    · exact (h.groups m).frame (fun q => by rw [hmem]; simp [hm])
        (fun q hq => heq q (hne q hq.1)) fun _ => heq m hm
  · have he' : Owns v call m e := by
      rcases he with ⟨q, hq, he⟩ | ⟨c', hc', he⟩
      · rcases (hmem m q).mp hq with hq | ⟨rfl, rfl⟩
        · refine .inl ⟨q, hq, ?_⟩
          rw [heq q (hne q hq.1)] at he
          refine he.imp_right fun he => ?_
          by_cases hqc : q = c
          · subst hqc; rw [Function.update_self] at he; cases he
          · rwa [Function.update_of_ne hqc] at he
        · refine .inr ⟨c, hc, ?_⟩
          rw [hself] at he
          rcases he with he | he
          · exact he
          · -- an embryo is not inside a call
            exfalso
            have hqc : q ≠ c := fun hqc => by rw [hqc, Function.update_self] at he; cases he
            rw [Function.update_of_ne hqc] at he
            have := h.inCall q (by rw [he]; simp)
            rw [hemb] at this
            cases this
      · by_cases hcc : c' = c
        · subst hcc; rw [Function.update_self] at hc'; cases hc'
        · rw [Function.update_of_ne hcc] at hc'
          have hmn : m ≠ np := fun hmn => hcc (h.news c' c np (by rw [hc', hmn]; rfl)
            (by rw [hc]; rfl))
          rw [heq m hmn] at he
          exact .inr ⟨c', hc', he⟩
    obtain ⟨o, ho⟩ := h.owner hD
    exact ⟨(ho m e he').1, he'⟩
  · by_cases hcc : c' = c
    · subst hcc; exact .inl (Function.update_self ..)
    · rw [Function.update_of_ne hcc]
      by_cases hu : call c' = .user
      · exact .inl hu
      · have hact := h.inCall c' hu
        have hcn := hne c' (.inl hact)
        refine .inr ⟨rfl, by rw [heq c' hcn]; exact hact, (h.calls c').frame (fun np' hnp => ?_)
          (by rw [heq c' hcn]) (by rw [heq c' hcn]) fun m q hq => ?_⟩
        · exact heq np' fun hnn => hcc (h.news c' c np (hnn ▸ hnp) (by rw [hc]; rfl))
        · exact join_of_eq (heq q (hne q (h.join_member hq).2.1.1))

/-! ### Changes of one group -/

/-- The groups of other processes do not see a change of the slots `S`. -/
theorem Inv.frame_group (h : Inv D v call dirs) {S : Slot → Prop} {m' : Slot}
    (hrest : ∀ q, ¬ S q → v' q = v q) (hold : ∀ q, S q → ¬ Member v m' q)
    (hnew : ∀ q, S q → ¬ Member v' m' q) (hlabel : S m' → ∀ q, ¬ Member v m' q) :
    GroupOk D v' m' := by
  have hmem : ∀ q, Member v' m' q ↔ Member v m' q := by
    intro q
    by_cases hq : S q
    · exact iff_of_false (hnew q hq) (hold q hq)
    · rw [Member, Member, Live, Live, hrest q hq]
  refine (h.groups m').frame hmem (fun q hq => hrest q fun hS => hold q hS hq) fun hex => ?_
  obtain ⟨q, hq⟩ := hex
  exact hrest m' fun hS => hlabel hS q hq

/-- Nor do the calls of other processes. -/
theorem Inv.frame_call (h : Inv D v call dirs) (hrest : ∀ q, ¬ Member v m q → v' q = v q)
    (hc : ¬ Member v m c) (hu : call c ≠ .user) :
    (v' c).life = .active ∧ CallOk D v' c (call c) := by
  have hact := h.inCall c hu
  refine ⟨by rw [hrest c hc]; exact hact, (h.calls c).frame (fun np hnp => ?_)
    (by rw [hrest c hc]) (by rw [hrest c hc]) fun m' q hq => ?_⟩
  · exact hrest np fun hmem => not_live_of_embryo (h.new_embryo hnp) hmem.1
  · obtain ⟨hmc, hmq, _⟩ := h.join_member hq
    refine join_of_eq (hrest q fun hmem => hc ⟨.inl hact, ?_⟩)
    rw [hmc, ← hmem.2, hmq.2]

/-- A released thread. -/
def View.freed (w : View) : View :=
  { w with life := .unused, main := none, next := none, pid := 0, tid := 0, join := none }

theorem Owns.mem (h : Inv D v call dirs) (hD : D) {d : Nat} (hd : Owns v call m d) :
    d ∈ dirs := by
  obtain ⟨o, ho⟩ := h.owner hD
  exact (ho m d hd).1

theorem Owns.unique (h : Inv D v call dirs) (hD : D) {m' : Slot} {d : Nat} (hd : Owns v call m d)
    (hd' : Owns v call m' d) : m = m' := by
  obtain ⟨o, ho⟩ := h.owner hD
  rw [← (ho m d hd).2, ← (ho m' d hd').2]

/-- `exit` releases the other threads of the process. -/
theorem Inv.exit (h : Inv D v call dirs) (hact : (v c).life = .active) (hm : (v c).main = some m)
    (hdir : D → c ≠ m → (v m).pgdir = (v c).pgdir)
    (hfree : ∀ q, Member v m q → q ≠ c → v' q = (v q).freed)
    (hc : v' c = { v c with life := .zombie }) (hrest : ∀ q, ¬ Member v m q → v' q = v q)
    (hcallin : ∀ q, Member v m q → call' q = .user)
    (hcallout : ∀ q, ¬ Member v m q → call' q = call q) : Inv D v' call' dirs := by
  obtain ⟨hmc, hlead, _⟩ := h.leader_of_active hact hm
  have hcallc : ∀ q x, x ≠ Call.user → call' q = x → ¬ Member v m q ∧ call q = x := by
    intro q x hx hq
    by_cases hqm : Member v m q
    · rw [hcallin q hqm] at hq
      exact absurd hq.symm hx
    · exact ⟨hqm, by rw [← hcallout q hqm, hq]⟩
  have hmem : ∀ q, Member v' m q ↔ q = c := by
    intro q
    by_cases hq : Member v m q
    · by_cases hqc : q = c
      · subst hqc; simp [Member, Live, hc, hm]
      · simp [Member, Live, hfree q hq hqc, View.freed, hqc]
    · refine iff_of_false ?_ fun hqc => hq (hqc ▸ hmc)
      rwa [Member, Live, hrest q hq]
  refine h.shrink (fun q => ?_) (fun m' => ?_) (fun hD m' d hd => ?_) fun q => ?_
  · by_cases hq : Member v m q
    · by_cases hqc : q = c
      · subst hqc
        obtain ⟨d, hd⟩ := (h.slots q).pgdir (.inl hact)
        exact ⟨fun _ => ⟨m, by rw [hc]; exact hm⟩, fun _ => ⟨d, by rw [hc]; exact hd⟩⟩
      · exact SlotOk.of_unused (by rw [hfree q hq hqc]; rfl)
    · exact (h.slots q).congr (hrest q hq)
  · by_cases hmm : m' = m
    · subst hmm
      by_cases hcm : c = m'
      · -- the main thread is the last one
        subst hcm
        refine GroupOk.of_single hmem (fun hz => by rw [hc] at hz; cases hz) ?_
        rw [hc]
        exact (h.groups c).tidLe hlead c hmc
      · -- the main thread is released
        have hmain : v' m' = (v m').freed := hfree m' hlead fun hmc' => hcm hmc'.symm
        have hno : ¬ Leader v' m' := fun hl => hcm ((hmem m').mp hl).symm
        refine ⟨fun q hq => ?_, fun hl => absurd hl hno, fun hl => absurd hl hno,
          fun hl => absurd hl hno, fun hl => absurd hl hno, fun hl => absurd hl hno⟩
        rw [hmem] at hq
        subst hq
        refine .inr ⟨by rw [hmain]; rfl, by rw [hc], ?_, fun q' hq' => (hmem q').mp hq'⟩
        intro hD
        rw [hmain, hc]
        exact hdir hD hcm
    · refine h.frame_group hrest (fun q hq hq' => ?_) (fun q hq hq' => ?_) fun hS q hq => ?_
      · exact hmm (Option.some.inj (hq'.2.symm.trans hq.2))
      · by_cases hqc : q = c
        · subst hqc
          rw [Member, hc] at hq'
          exact hmm (Option.some.inj (hm.symm.trans hq'.2)).symm
        · rw [Member, Live, hfree q hq hqc] at hq'
          simp [View.freed] at hq'
      · refine h.no_members ?_ (.inl ?_) hq
        · rcases hS.1 with hl | hl <;> rw [hl] <;> simp
        · rw [hS.2]; exact fun hh => hmm (Option.some.inj hh).symm
  · have hd' : Owns v call m' d := by
      rcases hd with ⟨q, hq, hd⟩ | ⟨q, hq, hd⟩
      · by_cases hqm : Member v m q
        · by_cases hqc : q = c
          · subst hqc
            have hmm : m' = m := by
              rw [Member, hc] at hq
              exact Option.some.inj (hq.2.symm.trans hm)
            subst hmm
            refine .inl ⟨q, hmc, ?_⟩
            rw [hc] at hd
            rcases hd with hd | hd
            · exact .inl hd
            · exact absurd hmc (hcallc q _ (by simp) hd).1
          · rw [Member, Live, hfree q hqm hqc] at hq
            simp [View.freed] at hq
        · rw [Member, Live, hrest q hqm] at hq
          rw [hrest q hqm] at hd
          exact .inl ⟨q, hq, hd.imp_right fun hd => (hcallc q _ (by simp) hd).2⟩
      · obtain ⟨_, hq⟩ := hcallc q _ (by simp) hq
        refine .inr ⟨q, hq, ?_⟩
        have hemb : (v m').life = .embryo := h.new_embryo (c := q) (by rw [hq]; rfl)
        rwa [hrest m' fun hS => not_live_of_embryo hemb hS.1] at hd
    exact ⟨hd'.mem h hD, hd'⟩
  · by_cases hq : Member v m q
    · exact .inl (hcallin q hq)
    · rw [hcallout q hq]
      by_cases huq : call q = .user
      · exact .inl huq
      · exact .inr ⟨rfl, h.frame_call hrest hq huq⟩

/-- `exec` releases the other threads of the process and frees the old directory. -/
theorem Inv.execFinish (h : Inv D v call dirs) (hact : (v c).life = .active)
    (hm : (v c).main = some m) {old : Nat} (hcall : call c = .exec (some old))
    (hfree : ∀ q, Member v m q → q ≠ c → v' q = (v q).freed)
    (hc : v' c = { v c with main := some c, tid := 0, createNum := 0, next := none })
    (hrest : ∀ q, ¬ Member v m q → v' q = v q)
    (hcallin : ∀ q, Member v m q → call' q = .user)
    (hcallout : ∀ q, ¬ Member v m q → call' q = call q) :
    Inv D v' call' (dirs.filter fun e => e ≠ old) := by
  obtain ⟨hmc, hlead, _⟩ := h.leader_of_active hact hm
  have hne : D → (v c).pgdir ≠ some old := by
    have := h.calls c
    rwa [hcall] at this
  have hold : Owns v call m old := .inl ⟨c, hmc, .inr hcall⟩
  have hcallc : ∀ q x, x ≠ Call.user → call' q = x → ¬ Member v m q ∧ call q = x := by
    intro q x hx hq
    by_cases hqm : Member v m q
    · rw [hcallin q hqm] at hq
      exact absurd hq.symm hx
    · exact ⟨hqm, by rw [← hcallout q hqm, hq]⟩
  have hmem : ∀ m' q, Member v' m' q ↔ (m' = c ∧ q = c) ∨ (Member v m' q ∧ m' ≠ m) := by
    intro m' q
    by_cases hq : Member v m q
    · have hmm : Member v m' q → m' = m := fun hq' => Option.some.inj (hq'.2.symm.trans hq.2)
      by_cases hqc : q = c
      · subst hqc
        simp only [Member, Live, hc, hact, true_or, true_and, Option.some.injEq, and_true]
        constructor
        · exact fun heq => .inl heq.symm
        · rintro (heq | ⟨heq, hmm'⟩)
          · exact heq.symm
          · exact absurd (Option.some.inj (heq.symm.trans hm)) hmm'
      · refine iff_of_false ?_ ?_
        · simp [Member, Live, hfree q hq hqc, View.freed]
        · rintro (⟨_, heq⟩ | ⟨hq', hmm'⟩)
          · exact hqc heq
          · exact hmm' (hmm hq')
    · rw [Member, Live, hrest q hq]
      constructor
      · intro hq'
        exact .inr ⟨hq', fun hmm => hq (hmm ▸ hq')⟩
      · rintro (⟨_, heq⟩ | ⟨hq', _⟩)
        · exact absurd (heq ▸ hmc) hq
        · exact hq'
  have hnoc : ∀ q, m ≠ c → ¬ Member v c q := fun q hmc' =>
    h.no_members (by rw [hact]; simp) (.inl (by rw [hm]; exact fun hh => hmc' (Option.some.inj hh)))
  have honly : ∀ q, Member v' c q ↔ q = c := by
    intro q
    rw [hmem]
    constructor
    · rintro (⟨_, heq⟩ | ⟨hq, hcm⟩)
      · exact heq
      · exact absurd hq (hnoc q (Ne.symm hcm))
    · exact fun heq => .inl ⟨rfl, heq⟩
  refine ⟨fun q => ?_, fun m' => ?_, ?_, fun q hq => ?_, fun q => ?_, fun q q' np hq hq' => ?_⟩
  · by_cases hq : Member v m q
    · by_cases hqc : q = c
      · subst hqc
        obtain ⟨d, hd⟩ := (h.slots q).pgdir (.inl hact)
        exact ⟨fun _ => ⟨q, by rw [hc]⟩, fun _ => ⟨d, by rw [hc]; exact hd⟩⟩
      · exact SlotOk.of_unused (by rw [hfree q hq hqc]; rfl)
    · exact (h.slots q).congr (hrest q hq)
  · by_cases hmc' : m' = c
    · subst hmc'
      exact GroupOk.of_single honly (fun _ => by rw [hc]) (by rw [hc])
    · by_cases hmm : m' = m
      · subst hmm
        refine GroupOk.of_empty fun q hq => ?_
        rcases (hmem _ q).mp hq with ⟨heq, _⟩ | ⟨_, hne⟩
        · exact hmc' heq
        · exact hne rfl
      · refine h.frame_group hrest (fun q hq hq' => ?_) (fun q hq hq' => ?_) fun hS q hq => ?_
        · exact hmm (Option.some.inj (hq'.2.symm.trans hq.2))
        · rcases (hmem _ q).mp hq' with ⟨heq, _⟩ | ⟨hq', _⟩
          · exact hmc' heq
          · exact hmm (Option.some.inj (hq'.2.symm.trans hq.2))
        · refine h.no_members ?_ (.inl ?_) hq
          · rcases hS.1 with hl | hl <;> rw [hl] <;> simp
          · rw [hS.2]; exact fun hh => hmm (Option.some.inj hh).symm
  · -- what the caller owned belongs to it under its own name
    intro hD
    obtain ⟨o, ho⟩ := h.owner hD
    refine ⟨fun e => if o e = m then c else o e, fun m' e he => ?_⟩
    have hcases : (m' = c ∧ Owns v call m e ∧ e ≠ old) ∨ (Owns v call m' e ∧ m' ≠ m) := by
      rcases he with ⟨q, hq, he⟩ | ⟨q, hq, he⟩
      · rcases (hmem m' q).mp hq with ⟨rfl, rfl⟩ | ⟨hq, hmm⟩
        · rw [hc] at he
          rcases he with he | he
          · exact .inl ⟨rfl, .inl ⟨q, hmc, .inl he⟩, fun heo => hne hD (heo ▸ he)⟩
          · exact absurd hmc (hcallc q _ (by simp) he).1
        · have hqm : ¬ Member v m q := fun hqm => hmm (Option.some.inj (hq.2.symm.trans hqm.2))
          rw [hrest q hqm] at he
          exact .inr ⟨.inl ⟨q, hq, he.imp_right fun he => (hcallc q _ (by simp) he).2⟩, hmm⟩
      · obtain ⟨_, hq⟩ := hcallc q _ (by simp) hq
        have hemb : (v m').life = .embryo := h.new_embryo (c := q) (by rw [hq]; rfl)
        rw [hrest m' fun hS => not_live_of_embryo hemb hS.1] at he
        refine .inr ⟨.inr ⟨q, hq, he⟩, fun hmm => ?_⟩
        subst hmm
        exact not_live_of_embryo hemb hlead.1
    rcases hcases with ⟨rfl, he, heo⟩ | ⟨he, hmm⟩
    · obtain ⟨hin, hoe⟩ := ho m e he
      exact ⟨List.mem_filter.mpr ⟨hin, by simpa using heo⟩, if_pos hoe⟩
    · obtain ⟨hin, hoe⟩ := ho m' e he
      refine ⟨List.mem_filter.mpr ⟨hin, ?_⟩, ?_⟩
      · simp only [decide_eq_true_eq]
        rintro rfl
        exact hmm (he.unique h hD hold)
      · show (if o e = m then c else o e) = m'
        rw [if_neg (by rw [hoe]; exact hmm), hoe]
  · obtain ⟨hqm, hq'⟩ := hcallc q _ hq rfl
    exact (h.frame_call hrest hqm (by rw [hq']; exact hq)).1
  · by_cases hq : Member v m q
    · rw [hcallin q hq]; trivial
    · rw [hcallout q hq]
      by_cases hu : call q = .user
      · rw [hu]; trivial
      · exact (h.frame_call hrest hq hu).2
  · have hnew : ∀ q np, (call' q).newSlot = some np → (call q).newSlot = some np := by
      intro q np hnp
      have hu : call' q ≠ .user := fun hu => by rw [hu] at hnp; cases hnp
      rw [(hcallc q _ hu rfl).2]
      exact hnp
    exact h.news q q' np (hnew q np hq) (hnew q' np hq')

/-! ### Changes of one thread -/

/-- A change in a group with a main thread that keeps its list and its numbers. -/
theorem GroupOk.frame_leader (h : GroupOk D v m) (hl : Leader v m)
    (hmem : ∀ q, Member v' m q ↔ Member v m q)
    (heq : ∀ q, Member v m q → (v' q).next = (v q).next ∧ (v' q).pid = (v q).pid ∧
      (v' q).tid = (v q).tid)
    (hm : (v' m).life = (v m).life ∧ (v' m).createNum = (v m).createNum) : GroupOk D v' m := by
  have hl' : Leader v' m := (hmem m).mpr hl
  refine ⟨fun _ _ => .inl hl', fun _ hact => ?_, fun _ q hq => ?_, fun _ q hq => ?_,
    fun _ q q' hq hq' htid => ?_, fun _ hz q hq => ?_⟩
  · obtain ⟨xs, hxs, hx⟩ := h.list hl (by rw [← hm.1]; exact hact)
    exact ⟨xs, hxs.congr fun a ha => (heq a ((hx a).mp ha)).1, fun q => (hx q).trans (hmem q).symm⟩
  · rw [hmem] at hq
    rw [(heq q hq).2.1, (heq m hl).2.1]
    exact h.pid hl q hq
  · rw [hmem] at hq
    rw [(heq q hq).2.2, hm.2]
    exact h.tidLe hl q hq
  · rw [hmem] at hq hq'
    rw [(heq q hq).2.2, (heq q' hq').2.2] at htid
    exact h.tidInj hl q q' hq hq' htid
  · rw [hmem] at hq
    exact h.ended hl (by rw [← hm.1]; exact hz) q hq

/-- The groups when the thread `c` of `m` changes but keeps its place. -/
theorem Inv.set_member (h : Inv D v call dirs) {w : View} (hact : (v c).life = .active)
    (hm : (v c).main = some m) (hlive : w.life = .active ∨ (w.life = .zombie ∧ c ≠ m))
    (hw : w = { v c with life := w.life, pgdir := w.pgdir }) :
    (∀ m' q, Member (Function.update v c w) m' q ↔ Member v m' q) ∧
      ∀ m', GroupOk D (Function.update v c w) m' := by
  obtain ⟨hmc, hlead, _⟩ := h.leader_of_active hact hm
  have heq : ∀ q, q ≠ c → Function.update v c w q = v q := fun q hq => Function.update_of_ne hq ..
  have hself : Function.update v c w c = w := Function.update_self ..
  have hmain : w.main = (v c).main := by rw [hw]
  have hmem : ∀ m' q, Member (Function.update v c w) m' q ↔ Member v m' q := by
    intro m' q
    by_cases hq : q = c
    · subst hq
      have hl : Live (Function.update v q w) q := by
        rw [Live, hself]
        exact hlive.imp_right fun hz => hz.1
      rw [Member, Member, hself, hmain]
      exact and_congr_left fun _ => iff_of_true hl hmc.1
    · rw [Member, Member, Live, Live, heq q hq]
  refine ⟨hmem, fun m' => ?_⟩
  by_cases hmm : m' = m
  · subst hmm
    refine (h.groups m').frame_leader hlead (hmem m') (fun q _ => ?_) ?_
    · by_cases hq : q = c
      · subst hq; rw [hself, hw]; exact ⟨rfl, rfl, rfl⟩
      · rw [heq q hq]; exact ⟨rfl, rfl, rfl⟩
    · by_cases hmc' : m' = c
      · subst hmc'
        have hwl : w.life = .active := hlive.resolve_right fun hz => hz.2 rfl
        rw [hself]
        exact ⟨by rw [hwl, hact], by rw [hw]⟩
      · rw [heq m' hmc']; exact ⟨rfl, rfl⟩
  · have hnot : ¬ Member v m' c := fun hc => hmm (Option.some.inj (hc.2.symm.trans hm))
    refine h.frame_group (S := fun q => q = c) heq (fun q hq hq' => hnot (hq ▸ hq'))
      (fun q hq hq' => hnot ((hmem m' c).mp (hq ▸ hq'))) fun hS q => ?_
    subst hS
    exact h.no_members (by rw [hact]; simp)
      (.inl (by rw [hm]; exact fun hh => hmm (Option.some.inj hh).symm))

/-- `thread_exit` of a thread that is not the main thread. -/
theorem Inv.threadExit (h : Inv D v call dirs) (hact : (v c).life = .active)
    (hm : (v c).main = some m) (hcm : c ≠ m) (hu : call c = .user) :
    Inv D (Function.update v c { v c with life := .zombie }) call dirs := by
  obtain ⟨hmem, hgroups⟩ := h.set_member (w := { v c with life := .zombie }) hact hm
    (.inr ⟨rfl, hcm⟩) rfl
  have hmc : Member v m c := ⟨.inl hact, hm⟩
  generalize hv' : Function.update v c { v c with life := .zombie } = v' at hmem hgroups ⊢
  have heq : ∀ q, q ≠ c → v' q = v q := fun q hq => by rw [← hv', Function.update_of_ne hq]
  have hself : v' c = { v c with life := .zombie } := by rw [← hv', Function.update_self]
  refine h.shrink (fun q => ?_) hgroups (fun hD m' d hd => ?_) fun q => ?_
  · by_cases hq : q = c
    · subst hq
      obtain ⟨d, hd⟩ := (h.slots q).pgdir (.inl hact)
      exact ⟨fun _ => ⟨m, by rw [hself]; exact hm⟩, fun _ => ⟨d, by rw [hself]; exact hd⟩⟩
    · exact (h.slots q).congr (heq q hq)
  · have hpg : ∀ q, (v' q).pgdir = (v q).pgdir := by
      intro q
      by_cases hq : q = c
      · subst hq; rw [hself]
      · rw [heq q hq]
    have hd' : Owns v call m' d := by
      rcases hd with ⟨q, hq, hd⟩ | ⟨q, hq, hd⟩
      · exact .inl ⟨q, (hmem m' q).mp hq, by rwa [hpg] at hd⟩
      · exact .inr ⟨q, hq, by rwa [hpg] at hd⟩
    exact ⟨hd'.mem h hD, hd'⟩
  · by_cases huq : call q = .user
    · exact .inl huq
    · have hqc : q ≠ c := fun hqc => huq (hqc ▸ hu)
      refine .inr ⟨rfl, by rw [heq q hqc]; exact h.inCall q huq, (h.calls q).frame
        (fun np hnp => heq np (h.new_ne hnp hmc.1)) (by rw [heq q hqc]) (by rw [heq q hqc])
        fun m' p hp => ⟨fun hmp => (hmem m' p).mpr hmp, ?_⟩⟩
      by_cases hpc : p = c
      · subst hpc; rw [hself]
      · rw [heq p hpc]

/-- `exec` changes to a new directory, and keeps the old one in mind unless it returns at once. -/
theorem Inv.execCommit (h : Inv D v call dirs) {d : Nat} {x : Call} (hact : (v c).life = .active)
    (hm : (v c).main = some m) (hu : call c = .user) (hfresh : d ∉ dirs)
    (hx : x = .user ∨ x = .exec (v c).pgdir) :
    Inv D (Function.update v c { v c with pgdir := some d }) (Function.update call c x)
      (d :: dirs) := by
  obtain ⟨hmem, hgroups⟩ := h.set_member (w := { v c with pgdir := some d }) hact hm
    (.inl hact) rfl
  have hmc : Member v m c := ⟨.inl hact, hm⟩
  generalize hv' : Function.update v c { v c with pgdir := some d } = v' at hmem hgroups ⊢
  have heq : ∀ q, q ≠ c → v' q = v q := fun q hq => by rw [← hv', Function.update_of_ne hq]
  have hself : v' c = { v c with pgdir := some d } := by rw [← hv', Function.update_self]
  have hlife : ∀ q, (v' q).life = (v q).life := by
    intro q
    by_cases hq : q = c
    · subst hq; rw [hself]
    · rw [heq q hq]
  have hembryo : ∀ q np, (call q).newSlot = some np → np ≠ c :=
    fun q np hnp => h.new_ne hnp hmc.1
  have hcallx : ∀ q np, (Function.update call c x q).newSlot = some np →
      (call q).newSlot = some np := by
    intro q np hnp
    by_cases hq : q = c
    · subst hq
      rw [Function.update_self] at hnp
      rcases hx with rfl | rfl <;> cases hnp
    · rwa [Function.update_of_ne hq] at hnp
  refine ⟨fun q => ?_, hgroups, ?_, fun q hq => ?_, fun q => ?_, fun q q' np hq hq' =>
    h.news q q' np (hcallx q np hq) (hcallx q' np hq')⟩
  · by_cases hq : q = c
    · subst hq
      exact ⟨fun _ => ⟨m, by rw [hself]; exact hm⟩, fun _ => ⟨d, by rw [hself]⟩⟩
    · exact (h.slots q).congr (heq q hq)
  · intro hD
    obtain ⟨o, ho⟩ := h.owner hD
    refine ⟨Function.update o d m, fun m' e he => ?_⟩
    have hcases : Owns v call m' e ∨ (m' = m ∧ e = d) := by
      rcases he with ⟨q, hq, he⟩ | ⟨q, hq, he⟩
      · rw [hmem] at hq
        by_cases hqc : q = c
        · subst hqc
          have hmm : m' = m := Option.some.inj (hq.2.symm.trans hm)
          rw [hself, Function.update_self] at he
          rcases he with he | he
          · exact .inr ⟨hmm, (Option.some.inj he).symm⟩
          · rcases hx with rfl | rfl
            · cases he
            · exact .inl (.inl ⟨q, hq, .inl (Call.exec.inj he)⟩)
        · rw [heq q hqc, Function.update_of_ne hqc] at he
          exact .inl (.inl ⟨q, hq, he⟩)
      · by_cases hqc : q = c
        · subst hqc
          rw [Function.update_self] at hq
          rcases hx with rfl | rfl <;> cases hq
        · rw [Function.update_of_ne hqc] at hq
          rw [heq m' (hembryo q m' (by rw [hq]; rfl))] at he
          exact .inl (.inr ⟨q, hq, he⟩)
    rcases hcases with hown | ⟨rfl, rfl⟩
    · obtain ⟨hin, hoe⟩ := ho m' e hown
      have hne : e ≠ d := fun hed => hfresh (hed ▸ hin)
      exact ⟨List.mem_cons_of_mem _ hin, by rw [Function.update_of_ne hne, hoe]⟩
    · exact ⟨List.mem_cons_self, Function.update_self ..⟩
  · rw [hlife]
    by_cases hqc : q = c
    · subst hqc; exact hact
    · rw [Function.update_of_ne hqc] at hq
      exact h.inCall q hq
  · by_cases hqc : q = c
    · subst hqc
      rw [Function.update_self]
      rcases hx with rfl | rfl
      · trivial
      · -- the new directory is not the old one, which was in use
        obtain ⟨e, he⟩ := (h.slots q).pgdir (.inl hact)
        intro hD
        rw [hself, he]
        intro hde
        have hin : e ∈ dirs := Owns.mem h hD (m := m) (.inl ⟨q, hmc, .inl he⟩)
        exact hfresh (Option.some.inj hde ▸ hin)
    · rw [Function.update_of_ne hqc]
      refine (h.calls q).frame (fun np hnp => heq np (hembryo q np hnp)) (by rw [heq q hqc])
        (by rw [heq q hqc]) fun m' p hp => ⟨fun hmp => (hmem m' p).mpr hmp, ?_⟩
      by_cases hpc : p = c
      · subst hpc; rw [hself]
      · rw [heq p hpc]

/-! ### The end of a thread -/

/-- `wait` reaps a zombie that is the last thread of its process. -/
theorem Inv.reap (h : Inv D v call dirs) {d : Nat} (hz : (v p).life = .zombie)
    (hm : (v p).main = some m) (hlast : ∀ q, Member v m q → q = p)
    (hd : D → (v p).pgdir = some d) :
    Inv D (Function.update v p { v p with life := .unused, pid := 0 }) call
      (dirs.filter fun e => e ≠ d) := by
  have hmp : Member v m p := ⟨.inr hz, hm⟩
  generalize hv' : Function.update v p { v p with life := .unused, pid := 0 } = v'
  have heq : ∀ q, q ≠ p → v' q = v q := fun q hq => by rw [← hv', Function.update_of_ne hq]
  have hself : (v' p).life = .unused := by rw [← hv', Function.update_self]
  have hmem : ∀ m' q, Member v' m' q ↔ Member v m' q ∧ q ≠ p := by
    intro m' q
    by_cases hq : q = p
    · subst hq
      exact iff_of_false (fun hq => not_live_of_unused hself hq.1) fun hq => hq.2 rfl
    · rw [Member, Live, heq q hq]
      exact ⟨fun hh => ⟨hh, hq⟩, fun hh => hh.1⟩
  have hnotnew : ∀ q np, (call q).newSlot = some np → np ≠ p :=
    fun q np hnp => h.new_ne hnp hmp.1
  refine h.shrink (fun q => ?_) (fun m' => ?_) (fun hD m' e he => ?_) fun q => ?_
  · by_cases hq : q = p
    · subst hq; exact SlotOk.of_unused hself
    · exact (h.slots q).congr (heq q hq)
  · by_cases hmm : m' = m
    · subst hmm
      exact GroupOk.of_empty fun q hq => ((hmem _ q).mp hq).2 (hlast q ((hmem _ q).mp hq).1)
    · have hnot : ¬ Member v m' p := fun hc => hmm (Option.some.inj (hc.2.symm.trans hm))
      refine h.frame_group (S := fun q => q = p) heq (fun q hq hq' => hnot (hq ▸ hq'))
        (fun q hq hq' => ((hmem _ q).mp hq').2 hq) fun hS q => ?_
      subst hS
      exact h.no_members (by rw [hz]; simp)
        (.inl (by rw [hm]; exact fun hh => hmm (Option.some.inj hh).symm))
  · have he' : Owns v call m' e := by
      rcases he with ⟨q, hq, he⟩ | ⟨q, hq, he⟩
      · obtain ⟨hq, hqp⟩ := (hmem m' q).mp hq
        rw [heq q hqp] at he
        exact .inl ⟨q, hq, he⟩
      · rw [heq m' (hnotnew q m' (by rw [hq]; rfl))] at he
        exact .inr ⟨q, hq, he⟩
    refine ⟨List.mem_filter.mpr ⟨he'.mem h hD, ?_⟩, he'⟩
    simp only [decide_eq_true_eq]
    rintro rfl
    -- the process had no other thread
    have hmm : m' = m := he'.unique h hD (.inl ⟨p, hmp, .inl (hd hD)⟩)
    subst hmm
    rcases he with ⟨q, hq, _⟩ | ⟨q, hq, _⟩
    · exact ((hmem _ q).mp hq).2 (hlast q ((hmem _ q).mp hq).1)
    · have hemb : (v m').life = .embryo := h.new_embryo (c := q) (by rw [hq]; rfl)
      exact h.no_members (by rw [hemb]; simp) (.inr hemb) hmp
  · by_cases hu : call q = .user
    · exact .inl hu
    · have hact := h.inCall q hu
      have hqp : q ≠ p := fun hqp => by rw [hqp, hz] at hact; cases hact
      refine .inr ⟨rfl, by rw [heq q hqp]; exact hact, (h.calls q).frame
        (fun np hnp => heq np (hnotnew q np hnp)) (by rw [heq q hqp]) (by rw [heq q hqp])
        fun m' p' hp' => join_of_eq (heq p' fun hpp => ?_)⟩
      obtain ⟨hmq, hmp', hne, _⟩ := h.join_member hp'
      subst hpp
      have hmm : m' = m := Option.some.inj (hmp'.2.symm.trans hm)
      subst hmm
      exact hqp (hlast q ⟨.inl hact, hmq⟩)

/-- `thread_join` releases the first thread behind the main thread. -/
theorem Inv.joined (h : Inv D v call dirs) (hact : (v c).life = .active) (hm : (v c).main = some m)
    (hu : call c = .user) (hp : Member v m p) (hpm : p ≠ m) (hz : (v p).life = .zombie)
    (hj : (v p).join = some c) (hnext : (v m).next = some p) (hfree : v' p = (v p).freed)
    (hhead : v' m = { v m with next := (v p).next })
    (hrest : ∀ q, q ≠ p → q ≠ m → v' q = v q) : Inv D v' call dirs := by
  obtain ⟨hmc, hlead, hmact⟩ := h.leader_of_active hact hm
  have hsame : ∀ q, q ≠ p → v' q = { v q with next := (v' q).next } := by
    intro q hq
    by_cases hqm : q = m
    · subst hqm; rw [hhead]
    · rw [hrest q hq hqm]
  have hmem : ∀ m' q, Member v' m' q ↔ Member v m' q ∧ q ≠ p := by
    intro m' q
    by_cases hq : q = p
    · subst hq
      refine iff_of_false (fun hq => not_live_of_unused ?_ hq.1) fun hq => hq.2 rfl
      rw [hfree]; rfl
    · rw [Member, Live, hsame q hq]
      exact ⟨fun hh => ⟨hh, hq⟩, fun hh => hh.1⟩
  have hnotnew : ∀ q np, (call q).newSlot = some np → np ≠ p ∧ np ≠ m := fun q np hnp =>
    ⟨h.new_ne hnp hp.1, h.new_ne hnp hlead.1⟩
  refine h.shrink (fun q => ?_) (fun m' => ?_) (fun hD m' e he => ?_) fun q => ?_
  · by_cases hq : q = p
    · subst hq; exact SlotOk.of_unused (by rw [hfree]; rfl)
    · have hok := h.slots q
      refine ⟨fun hl => ?_, fun hl => ?_⟩
      · rw [Live, hsame q hq] at hl; rw [hsame q hq]; exact hok.main hl
      · rw [Live, hsame q hq] at hl; rw [hsame q hq]; exact hok.pgdir hl
  · by_cases hmm : m' = m
    · subst hmm
      have hg := h.groups m'
      have hl' : Leader v' m' := (hmem _ _).mpr ⟨hlead, Ne.symm hpm⟩
      refine ⟨fun _ _ => .inl hl', fun _ _ => ?_, fun _ q hq => ?_, fun _ q hq => ?_,
        fun _ q q' hq hq' htid => ?_, fun _ hzm => ?_⟩
      · obtain ⟨xs, hxs, hx⟩ := hg.list hlead hmact
        have hnd := hxs.nodup
        obtain ⟨t, rfl, ht⟩ := chain_some_iff.mp hxs
        replace ht : Chain (fun i => (v i).next) (v m').next t := ht
        rw [hnext] at ht
        obtain ⟨ys, rfl, hys⟩ := chain_some_iff.mp ht
        rw [List.nodup_cons, List.nodup_cons] at hnd
        refine ⟨m' :: ys, ?_, fun q => ?_⟩
        · rw [chain_some_iff]
          refine ⟨ys, rfl, ?_⟩
          show Chain _ (v' m').next ys
          rw [hhead]
          refine Chain.congr hys fun a ha => ?_
          have hap : a ≠ p := fun hap => hnd.2.1 (hap ▸ ha)
          have ham : a ≠ m' := fun ham => hnd.1 (by simp [← ham, ha])
          show (v' a).next = (v a).next
          rw [hrest a hap ham]
        · rw [hmem, ← hx]
          constructor
          · intro hq
            refine ⟨by simp only [List.mem_cons] at hq ⊢; tauto, fun hqp => ?_⟩
            subst hqp
            rcases List.mem_cons.mp hq with hq | hq
            · exact hpm hq
            · exact hnd.2.1 hq
          · rintro ⟨hq, hqp⟩
            simp only [List.mem_cons] at hq ⊢
            tauto
      · obtain ⟨hq, hqp⟩ := (hmem _ q).mp hq
        rw [hsame q hqp, hsame m' (Ne.symm hpm)]
        exact hg.pid hlead q hq
      · obtain ⟨hq, hqp⟩ := (hmem _ q).mp hq
        rw [hsame q hqp, hsame m' (Ne.symm hpm)]
        exact hg.tidLe hlead q hq
      · obtain ⟨hq, hqp⟩ := (hmem _ q).mp hq
        obtain ⟨hq', hqp'⟩ := (hmem _ q').mp hq'
        rw [hsame q hqp, hsame q' hqp'] at htid
        exact hg.tidInj hlead q q' hq hq' htid
      · rw [hhead] at hzm
        rw [hmact] at hzm
        cases hzm
    · have hnot : ∀ q, Member v m q → ¬ Member v m' q :=
        fun q hq hq' => hmm (Option.some.inj (hq'.2.symm.trans hq.2))
      refine h.frame_group (S := fun q => q = p ∨ q = m) (fun q hq => ?_) (fun q hq => ?_)
        (fun q hq hq' => ?_) fun hS q => ?_
      · rw [not_or] at hq; exact hrest q hq.1 hq.2
      · rcases hq with rfl | rfl
        · exact hnot _ hp
        · exact hnot _ hlead
      · obtain ⟨hq', hqp⟩ := (hmem m' q).mp hq'
        rcases hq with rfl | rfl
        · exact hqp rfl
        · exact hnot _ hlead hq'
      · rcases hS with rfl | rfl
        · exact h.no_members (by rw [hz]; simp)
            (.inl (by rw [hp.2]; exact fun hh => hmm (Option.some.inj hh).symm))
        · exact absurd rfl hmm
  · have he' : Owns v call m' e := by
      rcases he with ⟨q, hq, he⟩ | ⟨q, hq, he⟩
      · obtain ⟨hq, hqp⟩ := (hmem m' q).mp hq
        rw [hsame q hqp] at he
        exact .inl ⟨q, hq, he⟩
      · obtain ⟨h₁, h₂⟩ := hnotnew q m' (by rw [hq]; rfl)
        rw [hrest m' h₁ h₂] at he
        exact .inr ⟨q, hq, he⟩
    exact ⟨he'.mem h hD, he'⟩
  · by_cases huq : call q = .user
    · exact .inl huq
    · have hactq := h.inCall q huq
      have hqp : q ≠ p := fun hqp => by rw [hqp, hz] at hactq; cases hactq
      refine .inr ⟨rfl, by rw [hsame q hqp]; exact hactq, (h.calls q).frame (fun np hnp => ?_)
        (by rw [hsame q hqp]) (by rw [hsame q hqp]) fun m' p' hp' => ?_⟩
      · exact hrest np (hnotnew q np hnp).1 (hnotnew q np hnp).2
      · -- only `c` joins `p`
        obtain ⟨_, hmp', hne, hj'⟩ := h.join_member hp'
        have hpp : p' ≠ p := by
          rintro rfl
          have hqc : q = c := Option.some.inj (hj'.symm.trans hj)
          exact huq (hqc ▸ hu)
        have hpm' : p' ≠ m := by
          rintro rfl
          exact hne (Option.some.inj (hlead.2.symm.trans hmp'.2))
        exact join_of_eq (hrest p' hpp hpm')

/-! ### `thread_create` -/

/-- A number of a thread is given out and not used. -/
theorem Inv.bump (h : Inv D v call dirs) (hm : Live v m) {n : Nat} (hn : (v m).createNum ≤ n) :
    Inv D (Function.update v m { v m with createNum := n }) call dirs := by
  generalize hv' : Function.update v m { v m with createNum := n } = v'
  have hsame : ∀ q, v' q = { v q with createNum := (v' q).createNum } ∧
      (v q).createNum ≤ (v' q).createNum := by
    intro q
    rw [← hv']
    by_cases hq : q = m
    · subst hq; rw [Function.update_self]; exact ⟨rfl, hn⟩
    · rw [Function.update_of_ne hq]; exact ⟨rfl, le_rfl⟩
  have hlive : ∀ q, Live v' q ↔ Live v q := fun q => by rw [Live, (hsame q).1, Live]
  have hmem : ∀ m' q, Member v' m' q ↔ Member v m' q := fun m' q => by
    rw [Member, hlive, (hsame q).1, Member]
  refine h.shrink (fun q => ⟨fun hq => ?_, fun hq => ?_⟩) (fun m' => ?_) (fun hD m' d hd => ?_)
    fun c => ?_
  · rw [(hsame q).1]; exact (h.slots q).main ((hlive q).mp hq)
  · rw [(hsame q).1]; exact (h.slots q).pgdir ((hlive q).mp hq)
  · have hg := h.groups m'
    have hl : Leader v' m' → Leader v m' := (hmem m' m').mp
    refine ⟨fun q hq => ?_, fun hl' hact => ?_, fun hl' q hq => ?_, fun hl' q hq => ?_,
      fun hl' q q' hq hq' htid => ?_, fun hl' hz q hq => ?_⟩
    · rw [hmem] at hq
      rcases hg.kind q hq with hk | ho
      · exact .inl ((hmem m' m').mpr hk)
      · refine .inr ⟨by rw [(hsame m').1]; exact ho.main, by rw [(hsame q).1]; exact ho.self,
          fun hD => ?_, fun q' hq' => ho.alone q' ((hmem m' q').mp hq')⟩
        rw [(hsame m').1, (hsame q).1]
        exact ho.pgdir hD
    · rw [(hsame m').1] at hact
      obtain ⟨xs, hxs, hx⟩ := hg.list (hl hl') hact
      refine ⟨xs, hxs.congr fun a _ => ?_, fun q => (hx q).trans (hmem m' q).symm⟩
      show (v' a).next = (v a).next
      rw [(hsame a).1]
    · rw [(hsame q).1, (hsame m').1]
      exact hg.pid (hl hl') q ((hmem m' q).mp hq)
    · have htid : (v' q).tid = (v q).tid := by rw [(hsame q).1]
      rw [htid]
      exact (hg.tidLe (hl hl') q ((hmem m' q).mp hq)).trans (hsame m').2
    · rw [(hsame q).1, (hsame q').1] at htid
      exact hg.tidInj (hl hl') q q' ((hmem m' q).mp hq) ((hmem m' q').mp hq') htid
    · rw [(hsame m').1] at hz
      exact hg.ended (hl hl') hz q ((hmem m' q).mp hq)
  · have hd' : Owns v call m' d := by
      rcases hd with ⟨q, hq, hd⟩ | ⟨c, hc, hd⟩
      · rw [(hsame q).1] at hd
        exact .inl ⟨q, (hmem m' q).mp hq, hd⟩
      · rw [(hsame m').1] at hd
        exact .inr ⟨c, hc, hd⟩
    exact ⟨hd'.mem h hD, hd'⟩
  · by_cases hu : call c = .user
    · exact .inl hu
    · refine .inr ⟨rfl, by rw [(hsame c).1]; exact h.inCall c hu, (h.calls c).frame
        (fun np hnp => ?_) (by rw [(hsame c).1]) (by rw [(hsame c).1])
        fun m' p _ => ⟨(hmem m' p).mpr, by rw [(hsame p).1]⟩⟩
      rw [← hv', Function.update_of_ne (h.new_ne hnp hm)]

/-- `thread_create` appends a new thread to the list of the process. -/
theorem Inv.create (h : Inv D v call dirs) {z : Slot} {ys : List Slot} {w : View}
    (hact : (v c).life = .active) (hm : (v c).main = some m)
    (hemb : (v np).life = .embryo) (hnew : ∀ c, (call c).newSlot ≠ some np)
    (hys : Chain (fun i => (v i).next) (some m) (ys ++ [z]))
    (hy : ∀ q, q ∈ ys ++ [z] ↔ Member v m q)
    (hw : w.life = .active ∧ w.main = some m ∧ w.next = none ∧ w.pid = (v m).pid ∧
      w.tid = (v m).createNum + 1 ∧ w.pgdir = (v c).pgdir)
    (hself : v' np = w)
    (hrest : ∀ q, q ≠ np → v' q = { v q with
      next := if q = z then some np else (v q).next
      createNum := if q = m then (v q).createNum + 1 else (v q).createNum }) :
    Inv D v' call dirs := by
  obtain ⟨hmc, hlead, hmact⟩ := h.leader_of_active hact hm
  obtain ⟨hwlife, hwmain, hwnext, hwpid, hwtid, hwdir⟩ := hw
  have hne : ∀ q, Live v q → q ≠ np := fun q hq hqn => not_live_of_embryo hemb (hqn ▸ hq)
  have hmem : ∀ m' q, Member v' m' q ↔ Member v m' q ∨ (m' = m ∧ q = np) := by
    intro m' q
    by_cases hq : q = np
    · subst hq
      simp only [Member, Live, hself, hwlife, hwmain, true_or, true_and, Option.some.injEq,
        and_true, hemb, reduceCtorEq, false_or, false_and]
      exact eq_comm
    · rw [Member, Live, hrest q hq]
      exact ⟨fun hh => .inl hh, fun hh => hh.resolve_right fun hh => hq hh.2⟩
  have hmz : Member v m z := (hy z).mp (by simp)
  refine h.shrink (fun q => ?_) (fun m' => ?_) (fun hD m' e he => ?_) fun q => ?_
  · by_cases hq : q = np
    · subst hq
      obtain ⟨d, hd⟩ := (h.slots c).pgdir hmc.1
      exact ⟨fun _ => ⟨m, by rw [hself, hwmain]⟩, fun _ => ⟨d, by rw [hself, hwdir, hd]⟩⟩
    · have hok := h.slots q
      refine ⟨fun hl => ?_, fun hl => ?_⟩
      · rw [Live, hrest q hq] at hl; rw [hrest q hq]; exact hok.main hl
      · rw [Live, hrest q hq] at hl; rw [hrest q hq]; exact hok.pgdir hl
  · by_cases hmm : m' = m
    · subst hmm
      have hg := h.groups m'
      have hmn := hne m' hlead.1
      have hl' : Leader v' m' := (hmem _ _).mpr (.inl hlead)
      have hcn : (v' m').createNum = (v m').createNum + 1 := by rw [hrest m' hmn]; simp
      have hpid : (v' m').pid = (v m').pid := by rw [hrest m' hmn]
      refine ⟨fun _ _ => .inl hl', fun _ _ => ⟨ys ++ [z] ++ [np], ?_, fun q => ?_⟩,
        fun _ q hq => ?_, fun _ q hq => ?_, fun _ q q' hq hq' htid => ?_, fun _ hzm => ?_⟩
      · -- only the link of the last thread has changed
        obtain ⟨a, hseg, hlast⟩ := chain_append_iff.mp hys
        rw [chain_cons_iff] at hlast
        have hnd := hys.nodup
        rw [chain_append_iff]
        refine ⟨some np, ?_, ?_⟩
        · rw [seg_append_iff]
          refine ⟨a, hseg.congr fun b hb => ?_, ?_⟩
          · have hbz : b ≠ z := by
              rintro rfl
              rw [List.nodup_append] at hnd
              exact hnd.2.2 b hb b (by simp) rfl
            have hbn := hne b ((hy b).mp (by simp [hb])).1
            show (v' b).next = (v b).next
            rw [hrest b hbn]
            simp [hbz]
          · rw [hlast.1]
            have hzn : (v' z).next = some np := by
              rw [hrest z (hne z hmz.1)]; simp
            simp [hzn]
        · rw [chain_cons_iff]
          refine ⟨rfl, ?_⟩
          show Chain _ (v' np).next []
          rw [hself, hwnext]
          simp
      · rw [List.mem_append, hy, hmem, List.mem_singleton]
        simp
      · rw [hpid]
        rcases (hmem _ q).mp hq with hq | ⟨_, rfl⟩
        · rw [hrest q (hne q hq.1)]; exact hg.pid hlead q hq
        · rw [hself, hwpid]
      · rw [hcn]
        rcases (hmem _ q).mp hq with hq | ⟨_, rfl⟩
        · have := hg.tidLe hlead q hq
          rw [hrest q (hne q hq.1)]
          show (v q).tid ≤ _
          omega
        · rw [hself, hwtid]
      · have hold : ∀ q, Member v m' q → (v' q).tid = (v q).tid ∧ (v q).tid ≤ (v m').createNum :=
          fun q hq => ⟨by rw [hrest q (hne q hq.1)], hg.tidLe hlead q hq⟩
        have htn : (v' np).tid = (v m').createNum + 1 := by rw [hself, hwtid]
        rcases (hmem _ q).mp hq with hq | ⟨_, rfl⟩ <;>
          rcases (hmem _ q').mp hq' with hq' | ⟨_, rfl⟩
        · rw [(hold q hq).1, (hold q' hq').1] at htid
          exact hg.tidInj hlead q q' hq hq' htid
        · have := hold q hq; omega
        · have := hold q' hq'; omega
        · rfl
      · rw [hrest m' hmn] at hzm
        rw [hmact] at hzm
        cases hzm
    · have hnot : ∀ q, Member v m q → ¬ Member v m' q :=
        fun q hq hq' => hmm (Option.some.inj (hq'.2.symm.trans hq.2))
      refine h.frame_group (S := fun q => q = np ∨ q = z ∨ q = m) (fun q hq => ?_)
        (fun q hq hq' => ?_) (fun q hq hq' => ?_) fun hS q => ?_
      · rw [not_or, not_or] at hq
        rw [hrest q hq.1]
        simp [hq.2.1, hq.2.2]
      · rcases hq with rfl | rfl | rfl
        · exact hne _ hq'.1 rfl
        · exact hnot _ hmz hq'
        · exact hnot _ hlead hq'
      · have hq'' := ((hmem m' q).mp hq').resolve_right fun hh => hmm hh.1
        rcases hq with rfl | rfl | rfl
        · exact hne _ hq''.1 rfl
        · exact hnot _ hmz hq''
        · exact hnot _ hlead hq''
      · rcases hS with rfl | rfl | rfl
        · exact h.no_members (by rw [hemb]; simp) (.inr hemb)
        · refine h.no_members ?_
            (.inl (by rw [hmz.2]; exact fun hh => hmm (Option.some.inj hh).symm))
          rcases hmz.1 with hl | hl <;> rw [hl] <;> simp
        · exact absurd rfl hmm
  · have he' : Owns v call m' e := by
      rcases he with ⟨q, hq, he⟩ | ⟨q, hq, he⟩
      · rcases (hmem m' q).mp hq with hq | ⟨rfl, rfl⟩
        · rw [hrest q (hne q hq.1)] at he
          exact .inl ⟨q, hq, he⟩
        · rw [hself, hwdir] at he
          rcases he with he | he
          · exact .inl ⟨c, hmc, .inl he⟩
          · have := h.inCall q (by rw [he]; simp)
            rw [hemb] at this
            cases this
      · have hmn : m' ≠ np := fun hmn => hnew q (by rw [hq, hmn]; rfl)
        rw [hrest m' hmn] at he
        exact .inr ⟨q, hq, he⟩
    exact ⟨he'.mem h hD, he'⟩
  · by_cases hu : call q = .user
    · exact .inl hu
    · have hactq := h.inCall q hu
      have hqn := hne q (.inl hactq)
      refine .inr ⟨rfl, by rw [hrest q hqn]; exact hactq, (h.calls q).frame (fun np' hnp => ?_)
        (by rw [hrest q hqn]) (by rw [hrest q hqn]) fun m' p' hp' =>
        ⟨fun hmp => (hmem m' p').mpr (.inl hmp), ?_⟩⟩
      · have hn : np' ≠ np := fun hn => hnew q (hn ▸ hnp)
        rw [hrest np' hn]
        simp [h.new_ne hnp hmz.1, h.new_ne hnp hlead.1]
      · rw [hrest p' (hne p' (h.join_member hp').2.1.1)]

end Xv6.Thread
